/-
  Texts that are no specification.

  `pg_parse_json` calls back as far as the text is JSON and the callbacks succeed; what it returns
  is not looked at.  So of all the ways in which a text may fail to be a specification only those end
  with an error which a callback raises itself, and only where the reading has not stopped before
  (`malformed_iff`).  In any case no test is executed for what comes after a part of the text that a
  specification may begin with.
-/
import Rustica.Specs

namespace Rustica.Spec

open Sax

/-! ## Texts -/

/-- What the driver uses of PostgreSQL, with `pg_parse_json`: the events that it calls back for, as
    long as the callbacks succeed, and whether the text is JSON. -/
structure PgParser extends PgTest where
  parseJson : CString → List (Event CString JsonToken) × Bool
  parseJson_valid : ∀ text, (parseJson text).2 = true →
    ∃ d : Doc CString JsonToken, (parseJson text).1 = d.events JsonToken.isNull
  /-- up to an error, the text is like one that is JSON -/
  parseJson_prefix : ∀ text, ∃ d : Doc CString JsonToken,
    (parseJson text).1 <+: d.events JsonToken.isNull
  /-- some token is a number -/
  number : ∃ token n, toPgTest.strtoint32 token = .ok n

/-- `JsonParseErrorType`, with one value for all errors of the parser. -/
inductive JsonParseErrorType where
  | success
  | semActionFailed
  | invalid

variable (pg : PgParser) (guest : TestGuest)

/-- `pg_parse_json`. -/
def pgParseJson (text : CString) : Except String JsonParseErrorType × TestState :=
  match drive (testSem pg.toPgTest guest) initialTestState (pg.parseJson text).1 with
  | (st, .raised err) => (.error err, st)
  | (st, .failed) => (.ok .semActionFailed, st)
  | (st, .success) => (.ok (if (pg.parseJson text).2 then .success else .invalid), st)

/-- `moontest_run`, for a text. -/
def moontestRunText (text : CString) : Native Unit × TestState :=
  if !guest.executeExported then
    (.raises "Function 'moonbit_test_driver_internal_execute' not found in module",
      initialTestState)
  else
    match pgParseJson pg guest text with
    | (.error err, st) => (.raises err, st)
    | (.ok _, st) => (.returns (), st)

/-- The text is a specification. -/
def IsSpec (text : CString) : Prop :=
  (pg.parseJson text).2 = true ∧
    ∃ ms : List (TopMember pg.toPgTest), (pg.parseJson text).1 = (doc ms).events JsonToken.isNull

/-- A specification may begin with the events. -/
def MayBegin (pg : PgTest) (es : List (Event CString JsonToken)) : Prop :=
  ∃ ms : List (TopMember pg), es <+: (doc ms).events JsonToken.isNull

/-- **What is asked** for a text that is no specification: an error is raised, and all calls come from
    a part of the text that a specification may begin with. -/
def ReportsMalformed (text : CString) : Prop :=
  ¬ IsSpec pg text → (∃ err, (moontestRunText pg guest text).1 = .raises err) ∧
    ∃ es, es <+: (pg.parseJson text).1 ∧ MayBegin pg.toPgTest es ∧
      (moontestRunText pg guest text).2.calls =
        (drive (testSem pg.toPgTest guest) initialTestState es).1.calls

/-! ## Beginnings -/

section
variable {pg : PgTest}

/-- The events of a specification before its end. -/
def top (ms : List (TopMember pg)) : List (Event CString JsonToken) :=
  .objectStart :: fields JsonToken.isNull (ms.map TopMember.field)

/-- And those of a field of files. -/
def inFiles (ms : List (TopMember pg)) (fs : List (FileEntry pg)) :
    List (Event CString JsonToken) :=
  top ms ++ .fieldStart (topField true) false :: .arrayStart ::
    elements JsonToken.isNull (fs.map FileEntry.doc)

/-- And those of a file. -/
def inRanges (ms : List (TopMember pg)) (fs : List (FileEntry pg)) (f : CString)
    (rs : List (RangeEntry pg)) : List (Event CString JsonToken) :=
  inFiles ms fs ++ .arrayStart :: .scalar ⟨f, .string⟩ :: .arrayStart ::
    elements JsonToken.isNull (rs.map RangeEntry.doc)

/-- And those of a range. -/
def inRange (ms : List (TopMember pg)) (fs : List (FileEntry pg)) (f : CString)
    (rs : List (RangeEntry pg)) (rms : List (RangeMember pg)) : List (Event CString JsonToken) :=
  inRanges ms fs f rs ++ .objectStart :: fields JsonToken.isNull (rms.map RangeMember.field)

/-- The events lead to a place in a specification. -/
inductive Begins (pg : PgTest) : Place → List (Event CString JsonToken) → Prop
  | start : Begins pg .start []
  | top (ms : List (TopMember pg)) : Begins pg .top (top ms)
  | topNull (ms : List (TopMember pg)) (isFiles : Bool) :
      Begins pg .top (Spec.top ms ++ [.fieldStart (topField isFiles) true])
  | package (ms : List (TopMember pg)) :
      Begins pg .package (Spec.top ms ++ [.fieldStart (topField false) false])
  | filesArray (ms : List (TopMember pg)) :
      Begins pg .filesArray (Spec.top ms ++ [.fieldStart (topField true) false])
  | files (ms : List (TopMember pg)) (fs) : Begins pg .files (inFiles ms fs)
  | fileName (ms : List (TopMember pg)) (fs) : Begins pg .fileName (inFiles ms fs ++ [.arrayStart])
  | rangesArray (ms : List (TopMember pg)) (fs) (f : CString) :
      Begins pg (.rangesArray f) (inFiles ms fs ++ [.arrayStart, .scalar ⟨f, .string⟩])
  | ranges (ms : List (TopMember pg)) (fs) (f : CString) (rs) :
      Begins pg (.ranges f) (inRanges ms fs f rs)
  | range (ms : List (TopMember pg)) (fs) (f : CString) (rs rms) :
      Begins pg (.range f (bounds rms)) (inRange ms fs f rs rms)
  | rangeNull (ms : List (TopMember pg)) (fs) (f : CString) (rs rms) (isEnd : Bool) :
      Begins pg (.range f (bounds rms))
        (inRange ms fs f rs rms ++ [.fieldStart (boundField isEnd) true])
  | bound (ms : List (TopMember pg)) (fs) (f : CString) (rs rms) (isEnd : Bool) :
      Begins pg (.bound f (bounds rms) isEnd)
        (inRange ms fs f rs rms ++ [.fieldStart (boundField isEnd) false])
  | fileEnd (ms : List (TopMember pg)) (fs) (f : CString) (rs) :
      Begins pg .fileEnd (inRanges ms fs f rs ++ [.arrayEnd])
  | finished (ms : List (TopMember pg)) :
      Begins pg .finished ((doc ms).events JsonToken.isNull)

variable (ms : List (TopMember pg)) (fs : List (FileEntry pg)) (f : CString)
  (rs : List (RangeEntry pg)) (rms : List (RangeMember pg))

theorem doc_events : (doc ms).events JsonToken.isNull = top ms ++ [.objectEnd] := by
  rw [doc, Doc.events, top, List.cons_append]

theorem top_append (m : TopMember pg) :
    top (ms ++ [m]) = top ms ++ fields JsonToken.isNull [m.field] := by
  rw [top, List.map_append, fields_append]
  rfl

theorem inFiles_append (f : FileEntry pg) :
    inFiles ms (fs ++ [f]) = inFiles ms fs ++ f.doc.events JsonToken.isNull := by
  rw [inFiles, inFiles, List.map_append, elements_append]
  simp [elements]

theorem inRanges_append (r : RangeEntry pg) :
    inRanges ms fs f (rs ++ [r]) = inRanges ms fs f rs ++ r.doc.events JsonToken.isNull := by
  rw [inRanges, inRanges, List.map_append, elements_append]
  simp [elements]

theorem inRange_append (m : RangeMember pg) :
    inRange ms fs f rs (rms ++ [m]) =
      inRange ms fs f rs rms ++ fields JsonToken.isNull [m.field] := by
  rw [inRange, inRange, List.map_append, fields_append]
  simp

/-- The end of the files, of a file and of a range. -/
theorem inFiles_end : inFiles ms fs ++ [.arrayEnd] = top (ms ++ [.files fs]) := by
  rw [top_append, inFiles]
  simp [TopMember.field, fields, Doc.events, Doc.isNull]

theorem inRanges_end : inRanges ms fs f rs ++ [.arrayEnd, .arrayEnd] =
    inFiles ms (fs ++ [⟨f, rs⟩]) := by
  rw [inFiles_append, inRanges]
  simp [FileEntry.doc, Doc.events, elements]

theorem inRange_end (r : RangeEntry pg) (h : r.members = rms) :
    inRange ms fs f rs rms ++ [.objectEnd] = inRanges ms fs f (rs ++ [r]) := by
  rw [inRanges_append, inRange, RangeEntry.doc, h]
  simp [Doc.events]

theorem mayBegin_top {es : List (Event CString JsonToken)} (h : es <+: top ms) :
    MayBegin pg es := by
  refine ⟨ms, h.trans ?_⟩
  rw [doc_events]
  exact List.prefix_append _ _

theorem mayBegin_files {es : List (Event CString JsonToken)} (h : es <+: inFiles ms fs) :
    MayBegin pg es := by
  refine mayBegin_top (ms ++ [.files fs]) (h.trans ?_)
  rw [← inFiles_end]
  exact List.prefix_append _ _

theorem mayBegin_ranges {es : List (Event CString JsonToken)} (h : es <+: inRanges ms fs f rs) :
    MayBegin pg es := by
  refine mayBegin_files ms (fs ++ [⟨f, rs⟩]) (h.trans ?_)
  rw [← inRanges_end]
  exact List.prefix_append _ _

/-- A range that is begun can be completed, if there is a number. -/
theorem mayBegin_range {es : List (Event CString JsonToken)}
    (hn : ∃ token n, pg.strtoint32 token = .ok n) (h : es <+: inRange ms fs f rs rms) :
    MayBegin pg es := by
  obtain ⟨token, n, hn⟩ := hn
  let r : RangeEntry pg :=
    { members := rms ++ [.bound false token n hn] ++ [.bound true token n hn]
      first := n
      last := n
      bounds_eq := by simp [bounds, RangeMember.set] }
  refine mayBegin_ranges ms fs f (rs ++ [r]) (h.trans ?_)
  rw [← inRange_end ms fs f rs r.members r rfl, inRange_append, inRange_append]
  simp only [List.append_assoc]
  exact List.prefix_append _ _

/-- **A specification may begin** with the events that lead to a place in one. -/
theorem Begins.mayBegin {p : Place} {es : List (Event CString JsonToken)} (h : Begins pg p es)
    (hn : ∃ token n, pg.strtoint32 token = .ok n) : MayBegin pg es := by
  cases h with
  | start => exact mayBegin_top [] List.nil_prefix
  | top ms => exact mayBegin_top ms List.prefix_rfl
  | topNull ms isFiles =>
    refine mayBegin_top (ms ++ [.null isFiles ⟨[], by simp⟩]) ?_
    rw [top_append]
    exact (List.prefix_append_right_inj _).2 ⟨_, rfl⟩
  | package ms =>
    refine mayBegin_top (ms ++ [.package ⟨[], by simp⟩]) ?_
    rw [top_append]
    exact (List.prefix_append_right_inj _).2 ⟨_, rfl⟩
  | filesArray ms =>
    refine mayBegin_files ms [] ?_
    exact ⟨[.arrayStart], by simp [inFiles, elements]⟩
  | files ms fs => exact mayBegin_files ms fs List.prefix_rfl
  | fileName ms fs =>
    refine mayBegin_ranges ms fs ⟨[], by simp⟩ [] ?_
    exact ⟨[.scalar ⟨⟨[], by simp⟩, .string⟩, .arrayStart], by simp [inRanges, elements]⟩
  | rangesArray ms fs f =>
    exact mayBegin_ranges ms fs f [] ⟨[.arrayStart], by simp [inRanges, elements]⟩
  | ranges ms fs f rs => exact mayBegin_ranges ms fs f rs List.prefix_rfl
  | range ms fs f rs rms => exact mayBegin_range ms fs f rs rms hn List.prefix_rfl
  | rangeNull ms fs f rs rms isEnd =>
    refine mayBegin_range ms fs f rs (rms ++ [.null isEnd ⟨[], by simp⟩]) hn ?_
    rw [inRange_append]
    exact (List.prefix_append_right_inj _).2 ⟨_, rfl⟩
  | bound ms fs f rs rms isEnd =>
    obtain ⟨token, n, hn⟩ := hn
    refine mayBegin_range ms fs f rs (rms ++ [.bound isEnd token n hn]) ⟨token, n, hn⟩ ?_
    rw [inRange_append]
    exact (List.prefix_append_right_inj _).2 ⟨_, rfl⟩
  | fileEnd ms fs f rs =>
    refine mayBegin_files ms (fs ++ [⟨f, rs⟩]) ?_
    rw [← inRanges_end]
    exact ⟨[.arrayEnd], by simp⟩
  | finished ms => exact ⟨ms, List.prefix_rfl⟩

theorem bounds_of_endRange {p' : Place} {cs : List TestCall} {b : Option ℤ × Option ℤ}
    (h : endRange f b = .goes p' cs) : ∃ first last, b = (some first, some last) := by
  rcases b with ⟨_ | first, _ | last⟩
  · cases h
  · cases h
  · cases h
  · exact ⟨first, last, rfl⟩

theorem bounds_append (m : RangeMember pg) : bounds (rms ++ [m]) = m.set (bounds rms) := by
  rw [bounds, List.foldl_append]
  rfl

/-- **An event that leads on** leads to another place, unless a null was announced. -/
theorem Begins.next {guest : TestGuest} {p p' : Place} {es : List (Event CString JsonToken)}
    {e : Event CString JsonToken} {cs : List TestCall} (h : Begins pg p es)
    (hnull : ∀ a k, es = a ++ [.fieldStart k true] → ∃ tok, e = .scalar tok ∧ tok.isNull = true)
    (hgo : next pg guest p e = .goes p' cs) : Begins pg p' (es ++ [e]) := by
  cases h with
  | start =>
    cases e with
    | objectStart =>
      cases hgo
      exact .top []
    | _ => cases hgo
  | top ms =>
    cases e with
    | objectEnd =>
      cases hgo
      rw [← doc_events]
      exact .finished ms
    | fieldStart name isNull =>
      rw [Spec.next] at hgo
      by_cases hp : name = packageField
      · rw [if_pos hp] at hgo
        subst hp
        cases isNull with
        | false =>
          cases hgo
          exact .package ms
        | true =>
          cases hgo
          exact .topNull ms false
      rw [if_neg hp] at hgo
      by_cases hf : name = fileAndIndexField
      · rw [if_pos hf] at hgo
        subst hf
        cases isNull with
        | false =>
          cases hgo
          exact .filesArray ms
        | true =>
          cases hgo
          exact .topNull ms true
      · rw [if_neg hf] at hgo
        cases hgo
    | scalar tok =>
      rw [Spec.next] at hgo
      split_ifs at hgo
    | _ => cases hgo
  | topNull ms isFiles =>
    obtain ⟨tok, rfl, htok⟩ := hnull _ _ rfl
    have htype : tok.type = .null := by simpa [JsonToken.isNull] using htok
    rw [Spec.next, if_pos htype] at hgo
    cases hgo
  | package ms =>
    cases e with
    | scalar tok =>
      obtain ⟨token, type⟩ := tok
      rw [Spec.next] at hgo
      split_ifs at hgo with ht
      cases hgo
      cases ht
      have heq : Spec.top ms ++ [.fieldStart (topField false) false] ++
          [.scalar ⟨token, .string⟩] = Spec.top (ms ++ [.package token]) := by
        rw [top_append, List.append_assoc]
        rfl
      rw [heq]
      exact .top _
    | _ => cases hgo
  | filesArray ms =>
    cases e with
    | arrayStart =>
      cases hgo
      rw [List.append_assoc]
      exact .files ms []
    | _ => cases hgo
  | files ms fs =>
    cases e with
    | arrayStart =>
      cases hgo
      exact .fileName ms fs
    | _ => cases hgo
  | fileName ms fs =>
    cases e with
    | scalar tok =>
      obtain ⟨token, type⟩ := tok
      rw [Spec.next] at hgo
      split_ifs at hgo with ht
      cases hgo
      cases ht
      rw [List.append_assoc]
      exact .rangesArray ms fs token
    | _ => cases hgo
  | rangesArray ms fs f =>
    cases e with
    | arrayStart =>
      cases hgo
      rw [List.append_assoc]
      exact .ranges ms fs f []
    | _ => cases hgo
  | ranges ms fs f rs =>
    cases e with
    | objectStart =>
      cases hgo
      exact .range ms fs f rs []
    | arrayEnd =>
      cases hgo
      exact .fileEnd ms fs f rs
    | _ => cases hgo
  | range ms fs f rs rms =>
    cases e with
    | fieldStart name isNull =>
      rw [Spec.next] at hgo
      by_cases hp : name = startField
      · rw [if_pos hp] at hgo
        subst hp
        cases isNull with
        | false =>
          cases hgo
          exact .bound ms fs f rs rms false
        | true =>
          cases hgo
          exact .rangeNull ms fs f rs rms false
      rw [if_neg hp] at hgo
      by_cases hf : name = endField
      · rw [if_pos hf] at hgo
        subst hf
        cases isNull with
        | false =>
          cases hgo
          exact .bound ms fs f rs rms true
        | true =>
          cases hgo
          exact .rangeNull ms fs f rs rms true
      · rw [if_neg hf] at hgo
        cases hgo
    | objectEnd =>
      rw [Spec.next] at hgo
      obtain ⟨first, last, hb⟩ := bounds_of_endRange f hgo
      rw [hb, endRange] at hgo
      split_ifs at hgo
      cases hgo
      rw [inRange_end ms fs f rs rms ⟨rms, first, last, hb⟩ rfl]
      exact .ranges ms fs f _
    | scalar tok =>
      rw [Spec.next] at hgo
      split_ifs at hgo
    | _ => cases hgo
  | rangeNull ms fs f rs rms isEnd =>
    obtain ⟨tok, rfl, htok⟩ := hnull _ _ rfl
    have htype : tok.type = .null := by simpa [JsonToken.isNull] using htok
    rw [Spec.next, if_pos htype] at hgo
    cases hgo
  | bound ms fs f rs rms isEnd =>
    cases e with
    | scalar tok =>
      obtain ⟨token, type⟩ := tok
      rw [Spec.next, setBound] at hgo
      by_cases ht : type ≠ .number
      · rw [if_pos ht] at hgo
        cases hgo
      rw [if_neg ht] at hgo
      rw [not_not] at ht
      subst ht
      cases hn : pg.strtoint32 token with
      | error err =>
        rw [hn] at hgo
        cases hgo
      | ok n =>
        rw [hn] at hgo
        cases hgo
        have heq : inRange ms fs f rs rms ++ [.fieldStart (boundField isEnd) false] ++
            [.scalar ⟨token, .number⟩] = inRange ms fs f rs (rms ++ [.bound isEnd token n hn]) := by
          rw [inRange_append, List.append_assoc]
          rfl
        have hb : (if isEnd then ((bounds rms).1, some n) else (some n, (bounds rms).2)) =
            bounds (rms ++ [.bound isEnd token n hn]) := by
          rw [bounds_append]
          cases isEnd with
          | false => rfl
          | true => rfl
        rw [heq, hb]
        exact .range ms fs f rs _
    | _ => cases hgo
  | fileEnd ms fs f rs =>
    cases e with
    | arrayEnd =>
      cases hgo
      rw [List.append_assoc]
      exact inRanges_end ms fs f rs ▸ .files ms _
    | _ => cases hgo
  | finished ms => cases hgo

end

/-! ## Errors -/

/-- **All calls come from what a specification may begin with.** -/
theorem calls_of_begin (pg : PgParser) (guest : TestGuest) (text : CString) :
    ∃ es, es <+: (pg.parseJson text).1 ∧ MayBegin pg.toPgTest es ∧
      (drive (testSem pg.toPgTest guest) initialTestState (pg.parseJson text).1).1.calls =
        (drive (testSem pg.toPgTest guest) initialTestState es).1.calls := by
  have hat : At .start initialTestState := ⟨rfl, trivial⟩
  have hfollows := follows_next pg.toPgTest guest
  obtain ⟨es, rest, p, heq, hgoes, hupto⟩ :=
    exists_goes (next pg.toPgTest guest) .start (pg.parseJson text).1
  have hpre : es <+: (pg.parseJson text).1 := ⟨rest, heq.symm⟩
  obtain ⟨d, hd⟩ := pg.parseJson_prefix text
  have hannounced := announced_events JsonToken.isNull d
  have hbegins : es <+: d.events JsonToken.isNull → Begins pg.toPgTest p es := by
    refine hgoes.rule (I := fun p es => es <+: d.events JsonToken.isNull → Begins pg.toPgTest p es)
      [] (fun _ => .start) ?_
    intro p fs e p' cs hI hnext hfs
    refine (hI ((List.prefix_append _ _).trans hfs)).next (fun a k ha => ?_) hnext
    obtain ⟨b, hb⟩ := hfs
    refine hannounced.next (a := a) (b := b) (k := k) ?_
    rw [← hb, ha]
    simp
  refine ⟨es, hpre, (hbegins (hpre.trans hd)).mayBegin pg.number, ?_⟩
  rw [hfollows.calls_eq hat, hfollows.calls_eq hat, hupto]

/-- What the parser returns is not looked at. -/
theorem moontestRunText_eq (pg : PgParser) (guest : TestGuest) (text : CString)
    (hexp : guest.executeExported = true) :
    (moontestRunText pg guest text).2 =
        (drive (testSem pg.toPgTest guest) initialTestState (pg.parseJson text).1).1 ∧
      ((∃ err, (moontestRunText pg guest text).1 = .raises err) ↔ ∃ err,
        (drive (testSem pg.toPgTest guest) initialTestState (pg.parseJson text).1).2 =
          .raised err) := by
  rw [moontestRunText, hexp, pgParseJson]
  rcases drive (testSem pg.toPgTest guest) initialTestState (pg.parseJson text).1 with ⟨st, v⟩
  cases v with
  | success => simp
  | failed => simp
  | raised err => simp

/-- For a text that is JSON it is the run for the document. -/
theorem moontestRunText_of_doc (pg : PgParser) (guest : TestGuest) (text : CString)
    {d : Doc CString JsonToken} (h : (pg.parseJson text).1 = d.events JsonToken.isNull) :
    moontestRunText pg guest text = moontestRun pg.toPgTest guest d := by
  rw [moontestRunText, moontestRun, pgParseJson, h]
  rcases drive (testSem pg.toPgTest guest) initialTestState (d.events JsonToken.isNull) with ⟨st, v⟩
  cases guest.executeExported with
  | false => rfl
  | true =>
    cases v with
    | success => rfl
    | failed => rfl
    | raised err => rfl

/-- **Malformed specifications.**  What is asked for a text holds exactly if it is a specification, or
    there is no function to call, or the first stop of the driver is one that it reports. -/
theorem malformed_iff (pg : PgParser) (guest : TestGuest) (text : CString) :
    ReportsMalformed pg guest text ↔
      IsSpec pg text ∨ guest.executeExported = false ∨
        Reported (next pg.toPgTest guest) .start (pg.parseJson text).1 := by
  by_cases hspec : IsSpec pg text
  · exact iff_of_true (fun h => absurd hspec h) (.inl hspec)
  cases hexp : guest.executeExported with
  | false =>
    refine iff_of_true (fun _ => ?_) (.inr (.inl rfl))
    rw [moontestRunText, hexp]
    exact ⟨⟨_, rfl⟩, [], List.nil_prefix, mayBegin_top [] List.nil_prefix, rfl⟩
  | true =>
    obtain ⟨hstate, hraises⟩ := moontestRunText_eq pg guest text hexp
    have hat : At .start initialTestState := ⟨rfl, trivial⟩
    rw [(follows_next pg.toPgTest guest).raises_iff hat] at hraises
    constructor
    · intro h
      exact .inr (.inr (hraises.1 (h hspec).1))
    · rintro (h | h | h)
      · exact absurd h hspec
      · cases h
      · refine fun _ => ⟨hraises.2 h, ?_⟩
        rw [hstate]
        exact calls_of_begin pg guest text

/-- A parser for texts of one character, which are no JSON: after a brace an object is begun. -/
def braceParser : PgParser where
  toPgTest := digitTest
  parseJson text := (if text.1 = [123] then [.objectStart] else [], false)
  parseJson_valid text h := by cases h
  parseJson_prefix text := by
    refine ⟨.object [], ?_⟩
    split_ifs
    · exact ⟨[.objectEnd], rfl⟩
    · exact List.nil_prefix
  number := ⟨⟨[48], by decide⟩, 0, rfl⟩

/-- **A text that is cut off** after its brace: the driver returns as from a specification. -/
theorem cutOff_not_reported : ¬ ReportsMalformed braceParser passingGuest ⟨[123], by decide⟩ := by
  intro h
  have hspec : ¬ IsSpec braceParser ⟨[123], by decide⟩ := fun hspec => by cases hspec.1
  obtain ⟨⟨err, herr⟩, -⟩ := h hspec
  have hrun : (moontestRunText braceParser passingGuest ⟨[123], by decide⟩).1 = .returns () := rfl
  rw [hrun] at herr
  cases herr

end Rustica.Spec
