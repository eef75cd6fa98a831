/-
  When compiler and loader agree: on a statement without hidden columns in whatever query it occurs,
  and on a module that has only such statements, whose rows come back from the table in the order of
  their indexes.
-/
import Rustica.Agreement

namespace Rustica

variable {mod : WasmModule} {pg : Postgres} {sql name : List UInt8} {argtypes : List Oid}

/-! ## A query for any statement -/

def i32 : RefType := ⟨valueTypeI32, 0, 0⟩
def ref (heapType : BitVec 32) : RefType := ⟨valueTypeNonNullable, 0, heapType⟩
def refNull (heapType : BitVec 32) : RefType := ⟨valueTypeNullable, 0, heapType⟩

/-- An argument type that casts to `oid`; type 1 of the module is an array. -/
def argTypeFor (oid : Oid) : RefType :=
  if oid = boolOid ∨ oid = int4Oid ∨ oid = dateOid then i32
  else if oid = int8Oid ∨ oid = timestampOid ∨ oid = timestamptzOid ∨ oid = timeOid then
    ⟨valueTypeI64, 0, 0⟩
  else if oid = float4Oid then ⟨valueTypeF32, 0, 0⟩
  else if oid = float8Oid then ⟨valueTypeF64, 0, 0⟩
  else if oid = int2ArrayOid ∨ oid = int4ArrayOid then ref 1
  else ref heapTypeExtern

/-- A module with one type of queries, of the given arguments and `n` result columns of type `i32`. -/
def sampleModule (args : List RefType) (n : ℕ) : WasmModule where
  types i :=
    if i = 0 then .struct [i32, ref heapTypeExtern, ref 1, refNull 3, ref 4]
    else if i = 1 then .struct [ref 2, i32]
    else if i = 2 then .array i32
    else if i = 3 then .struct args
    else if i = 4 then .struct [refNull 5]
    else if i = 5 then .struct (List.replicate n i32)
    else .struct [ref 0]
  getQueries := some ([i32], [ref 6])

/-- The query of the statement. -/
def sampleQuery (sql : List UInt8) (argtypes : List Oid) : QueryObj :=
  ⟨sql, fun i => argtypes.getD i 0, argtypes.length⟩

theorem sampleModule_cast (args : List RefType) (n : ℕ) {oid : Oid} (h : castable oid) :
    ∃ fn, wasmToPg (sampleModule args n) (argTypeFor oid) oid = some fn := by
  simp only [castable, isOpaque, List.mem_cons, List.not_mem_nil, or_false, Bool.or_eq_true,
    decide_eq_true_eq] at h
  rcases h with (rfl | rfl | rfl | rfl | rfl | rfl | rfl | rfl | rfl | rfl | rfl) |
    (rfl | rfl | rfl | rfl | rfl | rfl | rfl) <;>
  exact ⟨_, rfl⟩

theorem sampleModule_argFns (args : List RefType) (n : ℕ) (h : ∀ oid ∈ argtypes, castable oid) :
    ∃ fns, argFns (sampleModule args n) (argtypes.map argTypeFor) argtypes = .ok fns := by
  induction argtypes with
  | nil => exact ⟨[], rfl⟩
  | cons oid oids ih =>
    obtain ⟨fn, hfn⟩ := sampleModule_cast args n (h oid (by simp))
    obtain ⟨fns, hfns⟩ := ih fun o ho => h o (by simp [ho])
    exact ⟨fn :: fns, by simp [argFns, hfn, hfns, bind, Except.bind, pure, Except.pure]⟩

/-- What the type of the sample's queries leaves. -/
theorem sampleModule_type (args : List RefType) (n : ℕ) (h : args.length ≤ 65535) :
    ∃ attrs, compileQueryType (sampleModule args n) (ref 0) (fun _ => none) = .ok attrs ∧
      refTypes (attrs 5) = args ∧ refTypes (attrs 9) = List.replicate n i32 := by
  have hargs : compileArgs (sampleModule args n) (refNull 3) = fun attrs =>
      .ok ((attrs.set 3 (.int8 (refNull 3).toInt64)).set 5 (.int8s (args.map RefType.toInt64))) := by
    funext attrs
    have hunit : ∀ text, unitOrStruct (sampleModule args n) (refNull 3) text = .ok args := fun _ => rfl
    rw [compileArgs, hunit]
    exact if_neg (Nat.not_lt.2 h)
  have hres : compileResult (sampleModule args n) (ref 4) = fun attrs =>
      .ok ((attrs.set 7 (.int8s [(refNull 5).toInt64])).set 9
        (.int8s ((List.replicate n i32).map RefType.toInt64))) := rfl
  have htype : compileQueryType (sampleModule args n) (ref 0) = fun attrs =>
      compileArgs (sampleModule args n) (refNull 3) attrs >>=
        compileResult (sampleModule args n) (ref 4) := rfl
  rw [htype, hargs, hres]
  refine ⟨_, rfl, ?_, ?_⟩
  · rw [QueryAttrs.set_apply, if_neg (by decide), QueryAttrs.set_apply, if_neg (by decide),
      QueryAttrs.set_apply, if_pos rfl, refTypes_int8s]
  · rw [QueryAttrs.set_apply, if_pos rfl, refTypes_int8s]

theorem sampleQuery_argtypes (sql : List UInt8) {attrs : QueryAttrs}
    (h : refTypes (attrs 5) = argtypes.map argTypeFor) :
    argtypesOf attrs (sampleQuery sql argtypes) = argtypes := by
  apply List.ext_getElem
  · simp [argtypesOf, h]
  · intro i hi hi'
    simp [argtypesOf, sampleQuery, hi']

/-- The sample's query is rejected when the target list has another length than the result struct. -/
theorem sample_columnCount {attrs : QueryAttrs} {n : ℕ} {tl : List TargetEntry} {junk : ℕ → Oid}
    {index : BitVec 32} (hcast : ∀ oid ∈ argtypes, castable oid)
    (h5 : refTypes (attrs 5) = argtypes.map argTypeFor)
    (h9 : refTypes (attrs 9) = List.replicate n i32)
    (htl : describeQueryResults pg (cstring (terminated sql)) argtypes = .ok tl)
    (hne : n ≠ tl.length) :
    compileQuery (sampleModule (argtypes.map argTypeFor) n) pg junk attrs index
      (sampleQuery sql argtypes) = .error (.columnCount n tl.length) := by
  obtain ⟨fns, hfns⟩ := sampleModule_argFns (argtypes.map argTypeFor) n hcast
  set attrs₀ := ((attrs.set 0 (.text [])).set 1 (.int4 index)).set 2 (.text (terminated sql))
  have h5' : refTypes (attrs₀ 5) = argtypes.map argTypeFor := by
    simpa [attrs₀, QueryAttrs.set_apply] using h5
  have hof := sampleQuery_argtypes sql h5'
  have hargs : compileQueryArgs (sampleModule (argtypes.map argTypeFor) n) attrs₀
      (sampleQuery sql argtypes) = .ok ((attrs₀.set 4 (.int4s argtypes)).set 6
        (.int4s (fns.map WasmToPg.toInt4)), argtypes) := by
    refine compileQueryArgs_ok.2 ⟨by simp [h5', sampleQuery], fns, hof.symm, ?_, rfl⟩
    rw [h5']; exact hfns
  have h9' : refTypes (((attrs₀.set 4 (.int4s argtypes)).set 6
      (.int4s (fns.map WasmToPg.toInt4))) 9) = List.replicate n i32 := by
    simpa [attrs₀, QueryAttrs.set_apply] using h9
  have hres : compileQueryResult (sampleModule (argtypes.map argTypeFor) n) pg junk
      ((attrs₀.set 4 (.int4s argtypes)).set 6 (.int4s (fns.map WasmToPg.toInt4)))
      (terminated sql) argtypes = .error (.columnCount n tl.length) := by
    rw [compileQueryResult, htl, h9', List.length_replicate]
    exact if_pos hne
  rw [compileQuery]
  exact bind_eq_error.2 (.inr ⟨_, hargs, hres⟩)

/-! ## A whole module -/

/-- The types of the queries `get_queries` returns. -/
def queryTypes (mod : WasmModule) : List RefType :=
  match mod.getQueries with
  | some (_, [result]) => (referredStruct mod result false).getD []
  | _ => []

/-- All statements of the module, each with the types of its arguments, are in the set. -/
def WrittenIn (S : Set (List UInt8 × List Oid)) (mod : WasmModule) (queries : ℕ → QueryObj) : Prop :=
  ∀ (k : ℕ) t attrs, (queryTypes mod)[k]? = some t →
    compileQueryType mod t (fun _ => none) = .ok attrs →
    ((queries k).sql, argtypesOf attrs (queries k)) ∈ S

/-- The rows that are compiled are those that are stored under the name. -/
def StoredAs (table : List QueryAttrs) (name : List UInt8) (rows : List QueryAttrs) : Prop :=
  (table.filter fun row => rowModule row = some (.text name)).Perm (rows.map (stored name))

/-- Compiler and loader agree on a module. -/
structure ModuleAgrees (pg : Postgres) (mod : WasmModule) (queries : ℕ → QueryObj) : Prop where
  load : ∀ junk rows, runAndCompile mod pg junk (some queries) = .ok (some rows) →
    ∀ table name, StoredAs table name rows →
      ∃ plans, createModuleWithQueries pg table name = .ok plans ∧ List.Forall₂ Matches rows plans
  query : ∀ (junk : ℕ → ℕ → Oid) (k : ℕ) t, (queryTypes mod)[k]? = some t →
    Agree pg mod (junk k) k t (queries k)

theorem compileEach_rows {junk : ℕ → ℕ → Oid} {queries : ℕ → QueryObj} {q : ℕ}
    {types : List RefType} {rows : List QueryAttrs}
    (h : compileEach mod pg junk queries q types = .ok rows) :
    rows.length = types.length ∧ ∀ (k : ℕ) row, rows[k]? = some row → ∃ t, types[k]? = some t ∧
      compileOne mod pg (junk (q + k)) (q + k) t (queries (q + k)) = .ok row := by
  induction types generalizing q rows with
  | nil =>
    cases h
    exact ⟨rfl, by simp⟩
  | cons t ts ih =>
    obtain ⟨row, hrow, h⟩ := bind_eq_ok.1 h
    obtain ⟨rest, hrest, h⟩ := bind_eq_ok.1 h
    cases h
    obtain ⟨hlen, hrows⟩ := ih hrest
    refine ⟨by simp [hlen], ?_⟩
    rintro (_ | k) row' hk
    · cases hk
      exact ⟨t, rfl, hrow⟩
    · have hq : q + (k + 1) = q + 1 + k := by omega
      rw [hq]
      exact hrows k row' hk

theorem toInt_index {n : ℕ} (h : n < 65536) : (BitVec.ofNat 32 n).toInt = n := by
  rw [BitVec.toInt_eq_toNat_of_lt] <;> rw [BitVec.toNat_ofNat, Nat.mod_eq_of_lt] <;> omega

/-- The loader goes through the rows in the order they were compiled in. -/
theorem initQueryPlans_matches {rows : List QueryAttrs} {i : ℕ}
    (hidx : ∀ (k : ℕ) row, rows[k]? = some row → row 1 = some (.int4 (i + k : ℕ)))
    (hlen : i + rows.length ≤ 65536)
    (hload : ∀ row ∈ rows, ∃ plan, rstInitQueryPlan pg (stored name row) = .ok plan ∧
      Matches row plan) :
    ∃ plans, initQueryPlans pg i (rows.map (stored name)) = .ok plans ∧
      List.Forall₂ Matches rows plans := by
  induction rows generalizing i with
  | nil => exact ⟨[], rfl, .nil⟩
  | cons row rows ih =>
    obtain ⟨plan, hplan, hm⟩ := hload row (by simp)
    have hi : getInt4 (stored name row) 2 = .ok (i : BitVec 32) := by
      have h0 := hidx 0 row rfl
      simp only [Nat.add_zero] at h0
      simp [getInt4, getbinval, stored, QueryAttrs.set_apply, h0]
    have hint : (BitVec.ofNat 32 i).toInt = i := toInt_index (by grind)
    obtain ⟨plans, hplans, hms⟩ := @ih (i + 1)
      (fun k row' hk => by
        rw [show i + 1 + k = i + (k + 1) by omega]
        exact hidx (k + 1) row' hk)
      (by grind)
      (fun row' h' => hload row' (by simp [h']))
    refine ⟨plan :: plans, ?_, .cons hm hms⟩
    simp [initQueryPlans, hi, hint, hplan, hplans, bind, Except.bind, pure, Except.pure]

/-- The rows come back in the order they were compiled in. -/
theorem loadModuleQueries_eq {rows table : List QueryAttrs}
    (hidx : ∀ (k : ℕ) row, rows[k]? = some row → row 1 = some (.int4 (k : ℕ)))
    (hlen : rows.length ≤ 65536) (hst : StoredAs table name rows) :
    loadModuleQueries table name = rows.map (stored name) := by
  have hkey : ∀ (k : ℕ) (hk : k < rows.length), rowIndex (stored name rows[k]) = k := by
    intro k hk
    have h := hidx k rows[k] (List.getElem?_eq_getElem hk)
    simp [rowIndex, stored, QueryAttrs.set_apply, h, toInt_index (hk.trans_le hlen)]
  have hsorted : (rows.map (stored name)).Pairwise fun row row' => rowIndex row ≤ rowIndex row' := by
    rw [List.pairwise_iff_getElem]
    intro i j hi hj hij
    simp only [List.length_map] at hi hj
    rw [List.getElem_map, List.getElem_map, hkey i hi, hkey j hj]
    omega
  have hanti : ∀ a ∈ rows.map (stored name), ∀ b ∈ rows.map (stored name),
      rowIndex a ≤ rowIndex b → rowIndex b ≤ rowIndex a → a = b := by
    intro a ha b hb hab hba
    obtain ⟨i, hi, rfl⟩ := List.getElem_of_mem ha
    obtain ⟨j, hj, rfl⟩ := List.getElem_of_mem hb
    simp only [List.length_map] at hi hj
    rw [List.getElem_map, List.getElem_map, hkey i hi, hkey j hj] at hab hba
    have : i = j := by omega
    simp only [this]
  have hperm : (loadModuleQueries table name).Perm (rows.map (stored name)) :=
    (List.mergeSort_perm ..).trans hst
  have hsort : (loadModuleQueries table name).Pairwise
      fun row row' => rowIndex row ≤ rowIndex row' := by
    have h := @List.pairwise_mergeSort _ (fun row row' => decide (rowIndex row ≤ rowIndex row'))
      (fun a b c hab hbc => by
        simp only [decide_eq_true_eq] at hab hbc ⊢
        exact hab.trans hbc)
      (fun a b => by simpa using le_total (rowIndex a) (rowIndex b))
      (table.filter fun row => rowModule row = some (.text name))
    exact h.imp fun hab => by simpa using hab
  exact List.Perm.eq_of_pairwise (fun a b ha hb => hanti a (hperm.subset ha) b hb) hsort hsorted hperm

theorem runAndCompile_rows {junk : ℕ → ℕ → Oid} {queries : ℕ → QueryObj} {rows : List QueryAttrs}
    (h : runAndCompile mod pg junk (some queries) = .ok (some rows)) :
    (queryTypes mod).length ≤ 65535 ∧
      compileEach mod pg junk queries 0 (queryTypes mod) = .ok rows := by
  unfold runAndCompile at h
  split at h
  · cases h
  · rename_i func hfunc
    obtain ⟨rows', hrows, h⟩ : ∃ rows', compileQueries mod pg junk func (some queries) = .ok rows' ∧
        rows' = rows := by
      cases hc : compileQueries mod pg junk func (some queries) <;> rw [hc] at h <;> cases h
      exact ⟨_, rfl, rfl⟩
    subst h
    unfold compileQueries at hrows
    split at hrows
    · split at hrows
      · cases hrows
      split at hrows
      · split at hrows
        · cases hrows
        · rename_i types htypes
          have hty : queryTypes mod = types := by simp [queryTypes, hfunc, htypes]
          rw [hty]
          split at hrows
          · rename_i h0
            rw [List.length_eq_zero_iff.1 h0]
            exact ⟨by simp, hrows⟩
          · split at hrows
            · cases hrows
            · exact ⟨by omega, hrows⟩
      · cases hrows
    · cases hrows

theorem Agree.index {q : ℕ} {t : RefType} {query : QueryObj} {row : QueryAttrs} {junk : ℕ → Oid}
    (h : compileOne mod pg junk q t query = .ok row) : row 1 = some (.int4 (q : ℕ)) := by
  obtain ⟨attrs, hty, h⟩ := bind_eq_ok.1 h
  obtain ⟨args, ret, fields, htyped⟩ := compileQueryType_typed hty
  obtain ⟨d, hd, -⟩ := compileQuery_accepted htyped h
  exact hd.index

/-- **A module without hidden columns is loaded as it was compiled.** -/
theorem moduleAgrees_of_noHidden (hpg : pg.Lawful) {queries : ℕ → QueryObj}
    (h : ∀ (k : ℕ) t attrs, (queryTypes mod)[k]? = some t →
      compileQueryType mod t (fun _ => none) = .ok attrs →
      NoHidden pg (queries k).sql (argtypesOf attrs (queries k))) : ModuleAgrees pg mod queries := by
  have hag : ∀ (junk : ℕ → ℕ → Oid) (k : ℕ) t, (queryTypes mod)[k]? = some t →
      Agree pg mod (junk k) k t (queries k) := by
    intro junk k t ht
    cases hty : compileQueryType mod t (fun _ => none) with
    | ok attrs => exact (h k t attrs ht hty).agree hpg hty
    | error e =>
      -- a rejected type ends the compilation before the columns are counted
      have hone : compileOne mod pg (junk k) k t (queries k) = .error e := by
        rw [compileOne, hty]; rfl
      constructor
      · intro row hrow
        cases hone.symm.trans hrow
      · intro attrs tl ht'
        cases hty.symm.trans ht'
  refine ⟨fun junk rows hrows table name hst => ?_, hag⟩
  obtain ⟨hle, hrows⟩ := runAndCompile_rows hrows
  obtain ⟨hlen, hrow⟩ := compileEach_rows hrows
  simp only [Nat.zero_add] at hrow
  have hidx : ∀ (k : ℕ) row, rows[k]? = some row → row 1 = some (.int4 (k : ℕ)) := by
    intro k row hk
    obtain ⟨t, -, hone⟩ := hrow k row hk
    exact Agree.index hone
  rw [createModuleWithQueries, loadModuleQueries_eq hidx (by omega) hst]
  refine initQueryPlans_matches (by simpa using hidx) (by omega) fun row hmem => ?_
  obtain ⟨k, hk, rfl⟩ := List.getElem_of_mem hmem
  obtain ⟨t, ht, hone⟩ := hrow k rows[k] (List.getElem?_eq_getElem hk)
  exact ((hag junk k t ht).load _ hone).2 name

/-- **Compiler and loader agree on the modules written in a set of statements iff no statement of the
    set has a hidden column.** -/
theorem compile_load_agree_iff (hpg : pg.Lawful) (S : Set (List UInt8 × List Oid)) :
    (∀ mod queries, WrittenIn S mod queries → ModuleAgrees pg mod queries) ↔
      ∀ s ∈ S, NoHidden pg s.1 s.2 := by
  constructor
  · rintro h ⟨sql, argtypes⟩ hs hlen hcast tl htl
    by_contra hall
    -- the struct has as many fields as there are visible columns, which are fewer than all
    set n := (visible tl).length
    have hne : n ≠ tl.length := by
      intro heq
      apply hall
      intro e he
      have hvis : tl.filter (fun e => !e.resjunk) = tl :=
        List.filter_sublist.eq_of_length (by simpa [n, visible] using heq)
      simpa using List.filter_eq_self.1 hvis e he
    set args := argtypes.map argTypeFor
    obtain ⟨attrs, hty, h5, h9⟩ := sampleModule_type args n (by simpa [args] using hlen)
    have hof := sampleQuery_argtypes sql h5
    have htypes : queryTypes (sampleModule args n) = [ref 0] := rfl
    have hin : WrittenIn S (sampleModule args n) fun _ => sampleQuery sql argtypes := by
      intro k t attrs' ht hty'
      rw [htypes, List.getElem?_singleton] at ht
      split at ht
      · cases ht
        cases hty.symm.trans hty'
        rw [hof]
        exact hs
      · cases ht
    have hag := (h _ _ hin).query (fun _ _ => 0) 0 (ref 0) (by rw [htypes]; rfl)
    refine hag.count attrs tl hty (by rw [hof]; exact htl) (by simp [h9, n]) n tl.length ?_
    rw [compileOne, hty]
    exact sample_columnCount hcast h5 h9 htl hne
  · intro h mod queries hin
    exact moduleAgrees_of_noHidden hpg fun k t attrs ht hty => h _ (hin k t attrs ht hty)

/-! ### One statement -/

/-- A catalog in which every statement is a `SELECT` with the given target list. -/
def selectPostgres (tl : List TargetEntry) : Postgres where
  RawStmt := Unit
  Plan := Unit
  rawParser _ := some [()]
  analyze _ _ _ := some [⟨tl, [], true⟩]
  choosePortalStrategy _ := .oneSelect
  spiPrepare _ _ := some ()
  spiKeepplan _ := true
  resultDesc _ := some (visible tl).length

theorem selectPostgres_lawful (tl : List TargetEntry) : (selectPostgres tl).Lawful := by
  refine ⟨fun sql argtypes stmt qs _ hqs => ⟨(), rfl, rfl, fun tl' htl' => ?_⟩⟩
  cases hqs
  cases htl'
  rfl

/-- `SELECT a FROM t` -/
def selectA : List UInt8 := [83, 69, 76, 69, 67, 84, 32, 97, 32, 70, 82, 79, 77, 32, 116]

/-- `SELECT a FROM t ORDER BY b` -/
def selectAOrderByB : List UInt8 := selectA ++ [32, 79, 82, 68, 69, 82, 32, 66, 89, 32, 98]

/-- The target list of the ordered statement: the column, and what it is sorted by. -/
def orderedTargets : List TargetEntry := [⟨false, int4Oid⟩, ⟨true, int4Oid⟩]

/-- A struct with one field for the one column: the statement is rejected, `given 1 OIDs but
    expect 2`. -/
theorem order_by_rejected : (selectPostgres orderedTargets).Lawful ∧
    ¬ ModuleAgrees (selectPostgres orderedTargets) (sampleModule [] 1)
      fun _ => sampleQuery selectAOrderByB [] := by
  refine ⟨selectPostgres_lawful _, fun h => ?_⟩
  obtain ⟨attrs, hty, h5, h9⟩ := sampleModule_type [] 1 (by simp)
  have hag := h.query (fun _ _ => 0) 0 (ref 0) rfl
  have htl : describeQueryResults (selectPostgres orderedTargets)
      (cstring (terminated selectAOrderByB)) [] = .ok orderedTargets := rfl
  have hne : 1 ≠ orderedTargets.length := by decide
  refine hag.count attrs orderedTargets hty htl (by rw [h9]; rfl) 1 orderedTargets.length ?_
  rw [compileOne, hty]
  exact sample_columnCount (fun _ h => absurd h List.not_mem_nil) h5 h9 htl hne

theorem unordered_accepted :
    ModuleAgrees (selectPostgres [⟨false, int4Oid⟩]) (sampleModule [] 1)
      fun _ => sampleQuery selectA [] := by
  refine (compile_load_agree_iff (selectPostgres_lawful _) Set.univ).2 ?_ _ _ fun _ _ _ _ _ => trivial
  rintro s - - - tl htl
  cases htl
  simp [AllVisible]

end Rustica
