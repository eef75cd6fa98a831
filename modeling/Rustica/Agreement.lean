/-
  What the compiler writes, the loader reads.

  An accepted query leaves a row whose attributes are determined (`Accepted`); from such a row the
  loader makes a plan with the same contents, provided that the statement has no hidden column: the
  compiler counts all entries of the target list, the loader the visible ones.
-/
import Rustica.Load

namespace Rustica

variable {mod : WasmModule} {pg : Postgres} {junk : ℕ → Oid} {q : ℕ} {t : RefType}
  {attrs row : QueryAttrs} {query : QueryObj} {name : List UInt8}

theorem RefType.ofInt64_toInt64 (t : RefType) : ofInt64 t.toInt64 = t := by
  obtain ⟨v, r, h⟩ := t
  simp only [ofInt64, toInt64, RefType.mk.injEq]
  refine ⟨?_, ?_, ?_⟩ <;>
  · ext i hi
    simp only [BitVec.getElem_extractLsb', BitVec.getLsbD_append]
    grind

@[simp] theorem refTypes_int8s (types : List RefType) :
    refTypes (some (.int8s (types.map RefType.toInt64))) = types := by
  simp [refTypes, Function.comp_def, RefType.ofInt64_toInt64]

theorem QueryAttrs.set_apply (attrs : QueryAttrs) (i j : ℕ) (v : Attr) :
    attrs.set i v j = if j = i then some v else attrs j := Function.update_apply ..

/-- The loader finds the attributes of the compiled row one column further on. -/
theorem getbinval_stored {name : List UInt8} {row : QueryAttrs} {i : ℕ} (h0 : 0 < i) (hi : i < 11) :
    getbinval (stored name row) (i + 1) = row i := by
  simp [getbinval, stored, QueryAttrs.set_apply, h0.ne', Nat.succ_le_of_lt hi]

theorem bind_eq_ok {ε α β : Type} {x : Except ε α} {f : α → Except ε β} {b : β} :
    x >>= f = .ok b ↔ ∃ a, x = .ok a ∧ f a = .ok b := by
  cases x <;> simp [bind, Except.bind]

/-- A converter is found where the compiler has stored it. -/
theorem wasmToPgFuncs_toInt4 (fn : WasmToPg) : wasmToPgFuncs[fn.toInt4.toNat]? = some fn := by
  cases fn <;> rfl

theorem pgToWasmFuncs_toInt4 (fn : PgToWasm) : pgToWasmFuncs[fn.toInt4.toNat]? = some fn := by
  cases fn <;> rfl

/-! ## What an accepted query leaves -/

/-- The attributes that the type of a query determines. -/
structure Typed (attrs : QueryAttrs) (args : List RefType) (ret : RefType)
    (fields : List RefType) : Prop where
  args_le : args.length ≤ 65535
  args : attrs 5 = some (.int8s (args.map RefType.toInt64))
  ret : attrs 7 = some (.int8s [ret.toInt64])
  fields : attrs 9 = some (.int8s (fields.map RefType.toInt64))

theorem compileArgs_ok {attrs' : QueryAttrs} (h : compileArgs mod t attrs = .ok attrs') :
    ∃ args : List RefType, args.length ≤ 65535 ∧
      attrs' 5 = some (.int8s (args.map RefType.toInt64)) := by
  obtain ⟨args, -, h⟩ := bind_eq_ok.1 h
  split at h
  · cases h
  · cases h
    exact ⟨args, by omega, by simp [QueryAttrs.set_apply]⟩

theorem compileResult_ok {attrs' : QueryAttrs} (h : compileResult mod t attrs = .ok attrs') :
    ∃ (ret : RefType) (fields : List RefType), attrs' = (attrs.set 7 (.int8s [ret.toInt64])).set 9
      (.int8s (fields.map RefType.toInt64)) := by
  unfold compileResult at h
  split at h
  · cases h
  · obtain ⟨fields, -, h⟩ := bind_eq_ok.1 h
    cases h
    exact ⟨_, fields, rfl⟩
  · cases h

theorem compileQueryType_typed (h : compileQueryType mod t attrs = .ok row) :
    ∃ args ret fields, Typed row args ret fields := by
  unfold compileQueryType at h
  split at h
  · cases h
  · split at h
    · cases h
    split at h
    · cases h
    split at h
    · cases h
    split at h
    · cases h
    obtain ⟨attrs₁, h1, h2⟩ := bind_eq_ok.1 h
    obtain ⟨args, hle, hargs⟩ := compileArgs_ok h1
    obtain ⟨ret, fields, rfl⟩ := compileResult_ok h2
    exact ⟨args, ret, fields, hle, by simpa [QueryAttrs.set_apply] using hargs,
      by simp [QueryAttrs.set_apply], by simp [QueryAttrs.set_apply]⟩
  · cases h

/-- What is computed for a query. -/
structure RowData where
  sql : List UInt8
  args : List RefType
  argtypes : List Oid
  argFns : List WasmToPg
  ret : RefType
  fields : List RefType
  targets : List TargetEntry
  retOids : List Oid
  retFns : List PgToWasm

/-- The row of an accepted query: what its attributes hold, and how that was computed. -/
structure Accepted (mod : WasmModule) (pg : Postgres) (junk : ℕ → Oid) (q : ℕ) (query : QueryObj)
    (row : QueryAttrs) (d : RowData) : Prop where
  index : row 1 = some (.int4 q)
  sql : row 2 = some (.text d.sql)
  argtypes : row 4 = some (.int4s d.argtypes)
  argFns : row 6 = some (.int4s (d.argFns.map WasmToPg.toInt4))
  ret : row 7 = some (.int8s [d.ret.toInt64])
  retOids : row 8 = some (.int4s d.retOids)
  fields : row 9 = some (.int8s (d.fields.map RefType.toInt64))
  retFns : row 10 = some (.int4s (d.retFns.map PgToWasm.toInt4))
  sql_eq : d.sql = terminated query.sql
  argtypes_eq : d.argtypes = (List.range d.args.length).map query.oids
  argFns_eq : Rustica.argFns mod d.args d.argtypes = .ok d.argFns
  targets_eq : describeQueryResults pg (cstring d.sql) d.argtypes = .ok d.targets
  count : d.fields.length = d.targets.length
  retOids_eq : d.retOids = retArray junk d.fields.length d.targets
  retFns_eq : Rustica.retFns mod d.retOids d.fields = .ok d.retFns

theorem compileQueryArgs_ok {r : QueryAttrs × List Oid} :
    compileQueryArgs mod attrs query = .ok r ↔
      query.oidsLen = (refTypes (attrs 5)).length ∧ ∃ fns,
        r.2 = (List.range (refTypes (attrs 5)).length).map query.oids ∧
        argFns mod (refTypes (attrs 5)) r.2 = .ok fns ∧
        r.1 = (attrs.set 4 (.int4s r.2)).set 6 (.int4s (fns.map WasmToPg.toInt4)) := by
  obtain ⟨r1, r2⟩ := r
  unfold compileQueryArgs
  dsimp only
  split
  · rename_i hne
    exact ⟨nofun, fun h => absurd h.1 hne⟩
  · rename_i heq
    rw [bind_eq_ok]
    constructor
    · rintro ⟨fns, h, hr⟩
      cases hr
      exact ⟨not_not.1 heq, fns, rfl, h, rfl⟩
    · rintro ⟨-, fns, rfl, h, rfl⟩
      exact ⟨fns, h, rfl⟩

theorem compileQueryResult_ok {sql : List UInt8} {argtypes : List Oid} :
    compileQueryResult mod pg junk attrs sql argtypes = .ok row ↔
      ∃ tl fns, describeQueryResults pg (cstring sql) argtypes = .ok tl ∧
        (refTypes (attrs 9)).length = tl.length ∧
        retFns mod (retArray junk (refTypes (attrs 9)).length tl) (refTypes (attrs 9)) = .ok fns ∧
        row = (attrs.set 8 (.int4s (retArray junk (refTypes (attrs 9)).length tl))).set 10
          (.int4s (fns.map PgToWasm.toInt4)) := by
  unfold compileQueryResult
  dsimp only
  rw [bind_eq_ok]
  constructor
  · rintro ⟨tl, htl, h⟩
    split at h
    · cases h
    · rename_i heq
      obtain ⟨fns, hfns, h⟩ := bind_eq_ok.1 h
      cases h
      exact ⟨tl, fns, htl, not_not.1 heq, hfns, rfl⟩
  · rintro ⟨tl, fns, htl, heq, hfns, rfl⟩
    refine ⟨tl, htl, ?_⟩
    rw [if_neg (not_not.2 heq)]
    exact bind_eq_ok.2 ⟨fns, hfns, rfl⟩

/-- **The row of an accepted query.** -/
theorem compileQuery_accepted {args fields : List RefType} {ret : RefType}
    (ht : Typed attrs args ret fields) (h : compileQuery mod pg junk attrs q query = .ok row) :
    ∃ d, Accepted mod pg junk q query row d ∧ d.args = args ∧ d.fields = fields := by
  obtain ⟨⟨attrs₁, argtypes⟩, h1, h2⟩ := bind_eq_ok.1 h
  obtain ⟨-, fns, hargtypes, hfns, hattrs₁⟩ := compileQueryArgs_ok.1 h1
  dsimp only at h2 hargtypes hfns hattrs₁
  obtain ⟨tl, rfns, htl, hcount, hrfns, rfl⟩ := compileQueryResult_ok.1 h2
  have h5 : refTypes ((((attrs.set 0 (.text [])).set 1 (.int4 q)).set 2
      (.text (terminated query.sql))) 5) = args := by
    simp [QueryAttrs.set_apply, ht.args]
  have h9 : refTypes (attrs₁ 9) = fields := by
    simp [hattrs₁, QueryAttrs.set_apply, ht.fields]
  rw [h5] at hargtypes hfns
  rw [h9] at hcount hrfns ⊢
  refine ⟨⟨terminated query.sql, args, argtypes, fns, ret, fields, tl, retArray junk fields.length tl,
    rfns⟩, ?_, rfl, rfl⟩
  exact {
    index := by simp [QueryAttrs.set_apply, hattrs₁]
    sql := by simp [QueryAttrs.set_apply, hattrs₁]
    argtypes := by simp [QueryAttrs.set_apply, hattrs₁]
    argFns := by simp [QueryAttrs.set_apply, hattrs₁]
    ret := by simp [QueryAttrs.set_apply, hattrs₁, ht.ret]
    retOids := by simp [QueryAttrs.set_apply]
    fields := by simp [QueryAttrs.set_apply, hattrs₁, ht.fields]
    retFns := by simp [QueryAttrs.set_apply]
    sql_eq := rfl
    argtypes_eq := hargtypes
    argFns_eq := hfns
    targets_eq := htl
    count := hcount
    retOids_eq := rfl
    retFns_eq := hrfns }

/-! ## Loading it -/

/-- What is relied on: a statement that Postgres parses and analyzes can be prepared and kept, and
    the prepared plan's `resultDesc` has exactly the columns of the target list that are not junk. -/
structure Postgres.Lawful (pg : Postgres) : Prop where
  prepares : ∀ sql argtypes stmt qs, pg.rawParser sql = some [stmt] →
    pg.analyze stmt sql argtypes = some qs →
      ∃ plan, pg.spiPrepare sql argtypes = some plan ∧ pg.spiKeepplan plan = true ∧
        ∀ tl, targetList pg qs = .ok tl → (pg.resultDesc plan).getD 0 = (visible tl).length

/-- No entry of the target list is hidden. -/
def AllVisible (tl : List TargetEntry) : Prop := ∀ e ∈ tl, e.resjunk = false

/-- The plan has what the row holds, by the indexes of the compiler.  The type of the result rows is
    that of a statement with columns. -/
structure Matches (row : QueryAttrs) (plan : QueryPlan pg) : Prop where
  sql : ∃ sql, row 2 = some (.text sql) ∧
    pg.spiPrepare (cstring sql) plan.argtypes = some plan.plan
  argtypes : row 4 = some (.int4s plan.argtypes)
  argFns : ∃ fns : List WasmToPg, row 6 = some (.int4s (fns.map WasmToPg.toInt4)) ∧
    plan.wasmToPgFuncs = fns.map some
  retType : ∃ ret : RefType, row 7 = some (.int8s [ret.toInt64]) ∧
    plan.retType = if plan.nattrs = 0 then none else some ret
  rettypes : row 8 = some (.int4s plan.rettypes)
  retFieldTypes : row 9 = some (.int8s (plan.retFieldTypes.map RefType.toInt64))
  retFns : ∃ fns : List PgToWasm, row 10 = some (.int4s (fns.map PgToWasm.toInt4)) ∧
    plan.pgToWasmFuncs = fns.map some
  nargs : plan.nargs = plan.argtypes.length
  nattrs : plan.nattrs = plan.rettypes.length

theorem describe_prepares (hpg : pg.Lawful) {sql : List UInt8} {argtypes : List Oid}
    {tl : List TargetEntry} (h : describeQueryResults pg sql argtypes = .ok tl) :
    ∃ plan, pg.spiPrepare sql argtypes = some plan ∧ pg.spiKeepplan plan = true ∧
      (pg.resultDesc plan).getD 0 = (visible tl).length := by
  unfold describeQueryResults at h
  split at h
  · cases h
  · rename_i stmt hparse
    split at h
    · cases h
    · rename_i qs hana
      obtain ⟨plan, h1, h2, h3⟩ := hpg.prepares _ _ _ _ hparse hana
      exact ⟨plan, h1, h2, h3 tl h⟩
  · cases h

theorem argFns_length {ts : List RefType} {oids : List Oid} {fns : List WasmToPg}
    (h : argFns mod ts oids = .ok fns) (hlen : ts.length = oids.length) :
    fns.length = oids.length := by
  induction ts generalizing oids fns with
  | nil =>
    cases h
    exact hlen
  | cons t ts ih =>
    cases oids with
    | nil => cases hlen
    | cons oid oids =>
      simp only [argFns] at h
      split at h
      · cases h
      · obtain ⟨fns', h', he⟩ := bind_eq_ok.1 h
        cases he
        simp [ih h' (by simpa using hlen)]

theorem retFns_length {ts : List RefType} {oids : List Oid} {fns : List PgToWasm}
    (h : retFns mod oids ts = .ok fns) (hlen : ts.length = oids.length) :
    fns.length = oids.length := by
  induction oids generalizing ts fns with
  | nil =>
    cases h
    rfl
  | cons oid oids ih =>
    cases ts with
    | nil => cases hlen
    | cons t ts =>
      simp only [retFns] at h
      split at h
      · cases h
      · obtain ⟨fns', h', he⟩ := bind_eq_ok.1 h
        cases he
        simp [ih h' (by simpa using hlen)]

theorem AllVisible.length {tl : List TargetEntry} (h : AllVisible tl) :
    (visible tl).length = tl.length := by
  rw [visible, List.length_map, List.filter_eq_self.2 fun e he => by simp [h e he]]

theorem retArray_visible {tl : List TargetEntry} {n : ℕ} (h : (visible tl).length = n) :
    retArray junk n tl = visible tl := by
  simp [retArray, h]

/-- **From the row of a query without hidden columns the loader makes a matching plan.** -/
theorem load_accepted (hpg : pg.Lawful) {d : RowData} (hd : Accepted mod pg junk q query row d)
    (hall : AllVisible d.targets) :
    ∃ plan, rstInitQueryPlan pg (stored name row) = .ok plan ∧ Matches row plan := by
  obtain ⟨plan, hprep, hkeep, hdesc⟩ := describe_prepares hpg hd.targets_eq
  have hargs : d.args.length = d.argtypes.length := by simp [hd.argtypes_eq]
  have hfns := argFns_length hd.argFns_eq hargs
  have hcount : (visible d.targets).length = d.fields.length := hall.length.trans hd.count.symm
  have hret : d.retOids = visible d.targets := hd.retOids_eq.trans (retArray_visible hcount)
  have hrfns := retFns_length hd.retFns_eq (by rw [hret, hcount])
  have hres : initResult (stored name row) d.fields.length =
      .ok (if d.fields.length = 0 then none else some d.ret, d.retOids, d.fields) := by
    have hlen : d.retOids.length = d.fields.length := by rw [hret, hcount]
    by_cases h0 : d.fields.length = 0
    · rw [h0, List.length_eq_zero_iff] at hlen
      simp [initResult, hlen, List.length_eq_zero_iff.1 h0, pure, Except.pure]
    · have hpos : 0 < d.fields.length := by omega
      simp [initResult, hpos, h0, getInt8s, getInt4s, getbinval_stored, hd.ret, hd.retOids,
        hd.fields, hlen, bind, Except.bind, pure, Except.pure, Function.comp_def,
        RefType.ofInt64_toInt64]
  have hnattrs : (pg.resultDesc plan).getD 0 = d.fields.length := hdesc.trans hcount
  have hload : rstInitQueryPlan pg (stored name row) = .ok {
      plan, nargs := d.argtypes.length, nattrs := d.fields.length, argtypes := d.argtypes
      rettypes := d.retOids, retType := if d.fields.length = 0 then none else some d.ret
      retFieldTypes := d.fields, wasmToPgFuncs := d.argFns.map some
      pgToWasmFuncs := d.retFns.map some } := by
    simp [rstInitQueryPlan, getText, getInt4s, getbinval_stored, hd.sql, hd.argtypes, hd.argFns,
      hd.retFns, hprep, hkeep, hnattrs, hres, hfns, hrfns, hret, hcount, bind, Except.bind, pure, Except.pure,
      Function.comp_def, wasmToPgFuncs_toInt4, pgToWasmFuncs_toInt4]
  refine ⟨_, hload, ?_⟩
  exact {
    sql := ⟨d.sql, hd.sql, hprep⟩
    argtypes := hd.argtypes
    argFns := ⟨d.argFns, hd.argFns, rfl⟩
    retType := ⟨d.ret, hd.ret, rfl⟩
    rettypes := hd.retOids
    retFieldTypes := hd.fields
    retFns := ⟨d.retFns, hd.retFns, rfl⟩
    nargs := rfl
    nattrs := by rw [hret, hcount] }

/-! ## One statement -/

/-- The argument OIDs of a query, as many as its type has arguments. -/
def argtypesOf (attrs : QueryAttrs) (query : QueryObj) : List Oid :=
  (List.range (refTypes (attrs 5)).length).map query.oids

/-- The stored column types and converters are those of the visible columns. -/
def FromVisible (mod : WasmModule) (pg : Postgres) (query : QueryObj) (row : QueryAttrs) : Prop :=
  ∃ (argtypes : List Oid) (tl : List TargetEntry) (fields : List RefType) (fns : List PgToWasm),
    row 4 = some (.int4s argtypes) ∧
    describeQueryResults pg (cstring (terminated query.sql)) argtypes = .ok tl ∧
    row 8 = some (.int4s (visible tl)) ∧
    row 9 = some (.int8s (fields.map RefType.toInt64)) ∧
    retFns mod (visible tl) fields = .ok fns ∧
    row 10 = some (.int4s (fns.map PgToWasm.toInt4))

/-- Compiler and loader agree on a query: what is accepted can be loaded, and where the result struct
    has as many fields as there are visible columns, the query is not rejected for their count. -/
structure Agree (pg : Postgres) (mod : WasmModule) (junk : ℕ → Oid) (q : ℕ) (t : RefType)
    (query : QueryObj) : Prop where
  load : ∀ row, compileOne mod pg junk q t query = .ok row → FromVisible mod pg query row ∧
    ∀ name, ∃ plan, rstInitQueryPlan pg (stored name row) = .ok plan ∧ Matches row plan
  count : ∀ attrs tl, compileQueryType mod t (fun _ => none) = .ok attrs →
    describeQueryResults pg (cstring (terminated query.sql)) (argtypesOf attrs query) = .ok tl →
    (refTypes (attrs 9)).length = (visible tl).length →
    ∀ given expect, compileOne mod pg junk q t query ≠ .error (.columnCount given expect)

/-- The argument types for which there is a converter. -/
def castable (oid : Oid) : Bool :=
  oid ∈ [boolOid, int4Oid, dateOid, int8Oid, timestampOid, timestamptzOid, timeOid, float4Oid,
    float8Oid, int2ArrayOid, int4ArrayOid] || isOpaque oid

/-- No module with the statement is rejected before its columns are counted, or the statement has no
    hidden column. -/
def NoHidden (pg : Postgres) (sql : List UInt8) (argtypes : List Oid) : Prop :=
  argtypes.length ≤ 65535 → (∀ oid ∈ argtypes, castable oid) →
    ∀ tl, describeQueryResults pg (cstring (terminated sql)) argtypes = .ok tl → AllVisible tl

theorem wasmToPg_castable {oid : Oid} {fn : WasmToPg} (h : wasmToPg mod t oid = some fn) :
    castable oid := by
  by_contra hc
  simp only [castable, List.mem_cons, List.not_mem_nil, or_false, Bool.or_eq_true,
    decide_eq_true_eq, not_or] at hc
  obtain ⟨⟨h1, h2, h3, h4, h5, h6, h7, h8, h9, h10, h11⟩, h12⟩ := hc
  simp [wasmToPg, h1, h2, h3, h4, h5, h6, h7, h8, h9, h10, h11, h12] at h

theorem argFns_castable {ts : List RefType} {oids : List Oid} {fns : List WasmToPg}
    (h : argFns mod ts oids = .ok fns) (hlen : ts.length = oids.length) :
    ∀ oid ∈ oids, castable oid := by
  induction ts generalizing oids fns with
  | nil =>
    rw [List.length_nil, eq_comm, List.length_eq_zero_iff] at hlen
    simp [hlen]
  | cons t ts ih =>
    cases oids with
    | nil => simp
    | cons oid oids =>
      simp only [argFns] at h
      split at h
      · cases h
      · rename_i fn hfn
        obtain ⟨fns', h', -⟩ := bind_eq_ok.1 h
        intro o ho
        rcases List.mem_cons.1 ho with rfl | ho
        · exact wasmToPg_castable hfn
        · exact ih h' (by simpa using hlen) o ho

/-! ### Errors -/

theorem bind_eq_error {ε α β : Type} {x : Except ε α} {f : α → Except ε β} {e : ε} :
    x >>= f = .error e ↔ x = .error e ∨ ∃ a, x = .ok a ∧ f a = .error e := by
  cases x <;> simp [bind, Except.bind]

theorem argFns_error {ts : List RefType} {oids : List Oid} {e : CompileError}
    (h : argFns mod ts oids = .error e) : ∃ t oid, e = .castToPg t oid := by
  induction ts generalizing oids with
  | nil => cases h
  | cons t ts ih =>
    cases oids with
    | nil => cases h
    | cons oid oids =>
      simp only [argFns] at h
      split at h
      · cases h
        exact ⟨t, oid, rfl⟩
      · rcases bind_eq_error.1 h with h | ⟨_, _, h⟩
        · exact ih h
        · cases h

theorem retFns_error {ts : List RefType} {oids : List Oid} {e : CompileError}
    (h : retFns mod oids ts = .error e) : ∃ oid t, e = .castToWasm oid t := by
  induction oids generalizing ts with
  | nil => cases h
  | cons oid oids ih =>
    cases ts with
    | nil => cases h
    | cons t ts =>
      simp only [retFns] at h
      split at h
      · cases h
        exact ⟨oid, t, rfl⟩
      · rcases bind_eq_error.1 h with h | ⟨_, _, h⟩
        · exact ih h
        · cases h

theorem describe_error {sql : List UInt8} {argtypes : List Oid} {given expect : ℕ} :
    describeQueryResults pg sql argtypes ≠ .error (.columnCount given expect) := by
  unfold describeQueryResults
  split
  · nofun
  · split
    · nofun
    · unfold targetList
      split <;> nofun
  · nofun

/-- A query rejected for the count of its columns has passed the checks of its arguments. -/
theorem compileQuery_columnCount {given expect : ℕ} {index : BitVec 32}
    (h : compileQuery mod pg junk attrs index query = .error (.columnCount given expect)) :
    ∃ fns tl, argFns mod (refTypes (attrs 5)) (argtypesOf attrs query) = .ok fns ∧
      describeQueryResults pg (cstring (terminated query.sql)) (argtypesOf attrs query) = .ok tl ∧
      (refTypes (attrs 9)).length ≠ tl.length := by
  have h5 : ((((attrs.set 0 (.text [])).set 1 (.int4 index)).set 2
      (.text (terminated query.sql))) 5) = attrs 5 := by simp [QueryAttrs.set_apply]
  rcases bind_eq_error.1 h with h | ⟨⟨attrs₁, argtypes⟩, h1, h2⟩
  · unfold compileQueryArgs at h
    dsimp only at h
    split at h
    · cases h
    · rcases bind_eq_error.1 h with h | ⟨_, _, h⟩
      · obtain ⟨_, _, he⟩ := argFns_error h
        cases he
      · cases h
  · obtain ⟨-, fns, hargtypes, hfns, hattrs₁⟩ := compileQueryArgs_ok.1 h1
    rw [h5] at hargtypes hfns
    dsimp only at h2 hargtypes hfns hattrs₁
    have hof : argtypes = argtypesOf attrs query := hargtypes
    have h9 : attrs₁ 9 = attrs 9 := by simp [hattrs₁, QueryAttrs.set_apply]
    rw [hof] at hfns h2
    rcases bind_eq_error.1 h2 with h | ⟨tl, htl, h⟩
    · exact absurd h describe_error
    · rw [h9] at h
      split at h
      · exact ⟨fns, tl, hfns, htl, ‹_›⟩
      · rcases bind_eq_error.1 h with h | ⟨_, _, h⟩
        · obtain ⟨_, _, he⟩ := retFns_error h
          cases he
        · cases h

/-- **Without hidden columns they agree.** -/
theorem NoHidden.agree (hpg : pg.Lawful) (ht : compileQueryType mod t (fun _ => none) = .ok attrs)
    (hno : NoHidden pg query.sql (argtypesOf attrs query)) : Agree pg mod junk q t query := by
  obtain ⟨args, ret, fields, hty⟩ := compileQueryType_typed ht
  have hargs : refTypes (attrs 5) = args := by rw [hty.args, refTypes_int8s]
  have hlen : (argtypesOf attrs query).length ≤ 65535 := by
    simpa [argtypesOf, hargs] using hty.args_le
  have hone : compileOne mod pg junk q t query = compileQuery mod pg junk attrs q query := by
    rw [compileOne, ht]; rfl
  constructor
  · intro row hrow
    rw [hone] at hrow
    obtain ⟨d, hd, hda, hdf⟩ := compileQuery_accepted hty hrow
    have hof : d.argtypes = argtypesOf attrs query := by rw [hd.argtypes_eq, hda, argtypesOf, hargs]
    have hcast := argFns_castable hd.argFns_eq (by simp [hd.argtypes_eq])
    have hall : AllVisible d.targets := by
      refine hno hlen (hof ▸ hcast) _ ?_
      rw [← hd.sql_eq, ← hof]; exact hd.targets_eq
    have hret : d.retOids = visible d.targets :=
      hd.retOids_eq.trans (retArray_visible (hall.length.trans hd.count.symm))
    refine ⟨⟨d.argtypes, d.targets, d.fields, d.retFns, hd.argtypes, ?_, hret ▸ hd.retOids, hd.fields,
      hret ▸ hd.retFns_eq, hd.retFns⟩, fun name => load_accepted hpg hd hall⟩
    rw [← hd.sql_eq]; exact hd.targets_eq
  · intro attrs' tl ht' htl hcount given expect herr
    cases ht.symm.trans ht'
    rw [hone] at herr
    obtain ⟨fns, tl', hfns, htl', hne⟩ := compileQuery_columnCount herr
    cases htl.symm.trans htl'
    have hcast := argFns_castable hfns (by simp [argtypesOf])
    exact hne (hcount.trans (hno hlen hcast tl htl).length)

end Rustica
