/-
  The load of a module (`rst_prepare_module` in `module.c`, and the callbacks in `worker.c` for the
  modules that it imports).

  The owner of a `PreparedModule` and of what it holds changes on the way: it is made and filled in
  nested blocks that free it on errors, and then it is the registered module that owns it.  For an
  imported module there is a gap between these: once `wasm_module_reader_callback` has returned it,
  no one owns it until `wasm_module_completer_callback` and the registration, and
  `wasm_module_destroyer_callback`, which is called if the load fails there, is empty.  So the load of
  a module is all or nothing unless a module that it imports fails after it was read
  (`allOrNothing_iff`).

  Kept out are what the transaction frees, and the memory that the runtime manages itself.
-/
import Rustica.Lib.Arena
import Rustica.Lib.Memory
import Rustica.Load
import Rustica.ModuleCache

namespace Rustica.Loading

open PgTry Code

variable (pg : Postgres)

/-! ## Modules in the making -/

/-- A `QueryPlan` in a `PreparedModule`: its saved plan, its block of converters, and what is in it
    once it is complete. -/
structure Slot where
  plan : Option ℕ := none
  block : Option ℕ := none
  query : Option (QueryPlan pg) := none

/-- A `PreparedModule`; `module` says whether it is not null.  `rows` is a record of the rows that it
    is made of, which the code does not keep. -/
structure PreparedModule where
  name : String
  rows : List QueryAttrs
  module : Bool := false
  loadingTuptable : Option ℕ := none
  heapTypes : List (BitVec 32) := []
  queries : List (Slot pg)

/-- What a worker holds: the allocations that are live, the contents of those that are a
    `PreparedModule`, and the registered modules. -/
structure Loader where
  arena : Arena := .empty
  modules : Memory ℕ (PreparedModule pg) := .empty
  registered : List (String × ℕ) := []

inductive PackageType where
  | bytecode
  | aot
  deriving DecidableEq

/-- What is found for a module: its rows of `rustica.queries`, the `heap_types` of its row of
    `rustica.modules`, the kind of its code (`none` if it is neither), and whether the calls of the
    runtime that follow succeed. -/
structure ModuleInput where
  queriesSelected : Bool := true
  rows : List QueryAttrs := []
  rowSelected : Bool := true
  heapTypes : Option (List (BitVec 32))
  type : Option PackageType := some .aot
  rttCreated : Bool := true
  registers : Bool := true

/-- What the runtime comes upon while it loads the code of a module: imports of modules that are
    registered or being loaded, imports of others, with what is found for them and in their code, and
    the end, or where it gives up. -/
inductive Imports where
  | done (loads : Bool)
  | known (rest : Imports)
  | depend (name : String) (input : ModuleInput) (imports rest : Imports)

variable {pg}

/-! ## The code -/

def allocate : Code (Loader pg) ℕ :=
  lift Loader.arena (fun a s => { s with arena := a }) Arena.allocate

def release (i : ℕ) : Code (Loader pg) Unit :=
  lift Loader.arena (fun a s => { s with arena := a }) (Arena.release i)

/-- What a pointer to a `PreparedModule` points to. -/
def contents (p : ℕ) : Code (Loader pg) (PreparedModule pg) := fun s =>
  match s.modules.get? p with
  | some m => (.returned m, s)
  | none => (.crashed, s)

def modify (p : ℕ) (f : PreparedModule pg → PreparedModule pg) : Code (Loader pg) Unit := do
  let m ← contents p
  update fun s => { s with modules := s.modules.store p (f m) }

def register (name : String) (p : ℕ) : Code (Loader pg) Unit :=
  update fun s => { s with registered := (name, p) :: s.registered }

/-- `SPI_freetuptable`, or any other function to free what may be null. -/
def releaseSome : Option ℕ → Code (Loader pg) Unit
  | some i => release i
  | none => pure ()

/-- `rst_free_query_plan`. -/
def rstFreeQueryPlan (q : Slot pg) : Code (Loader pg) Unit := do
  releaseSome q.plan
  releaseSome q.block

def freeQueryPlans : List (Slot pg) → Code (Loader pg) Unit
  | [] => pure ()
  | q :: qs => do
    rstFreeQueryPlan q
    freeQueryPlans qs

/-- `rst_free_module`. -/
def rstFreeModule : Option ℕ → Code (Loader pg) Unit
  | none => pure ()
  | some p => do
    let m ← contents p
    freeQueryPlans m.queries
    if m.module then
      update fun s => { s with registered := s.registered.filter fun r => r.2 ≠ p }
    releaseSome m.loadingTuptable
    release p
    update fun s => { s with modules := s.modules.free p }

/-- `plan->` with the plan at index `i`. -/
def setSlot (p i : ℕ) (f : Slot pg → Slot pg) : Code (Loader pg) Unit :=
  modify p fun m => { m with queries := m.queries.modify i f }

variable (pg)

/-- `rst_init_query_plan`, with what it leaves in the plan when it raises an error. -/
def rstInitQueryPlan (p i : ℕ) (row : QueryAttrs) : Code (Loader pg) Unit := do
  let sql ← ofExcept (getText row 3)
  let argtypes ← ofExcept (getInt4s row 5)
  let nargs := argtypes.length
  match pg.spiPrepare (cstring sql) argtypes with
  | none => raiseError
  | some plan => do
    call (!pg.spiKeepplan plan)
    let spiPlan ← allocate
    setSlot p i fun q => { q with plan := some spiPlan }
    let nattrs := (pg.resultDesc plan).getD 0
    let fns ← ofExcept (getInt4s row 7)
    call (fns.length ≠ nargs)
    if 0 < nargs + nattrs then do
      let block ← allocate
      setSlot p i fun q => { q with block := some block }
    let (retType, rettypes, retFieldTypes) ← ofExcept (initResult row nattrs)
    let retFns ← ofExcept (getInt4s row 11)
    call (retFns.length ≠ nattrs)
    setSlot p i fun q => { q with
      query := some {
        plan, nargs, nattrs, argtypes, rettypes, retType, retFieldTypes
        wasmToPgFuncs := fns.map fun d => wasmToPgFuncs[d.toNat]?
        pgToWasmFuncs := retFns.map fun d => pgToWasmFuncs[d.toNat]? } }

/-- The loop over the rows, from row `i` on. -/
def initQueryPlans (p : ℕ) : ℕ → List QueryAttrs → Code (Loader pg) Unit
  | _, [] => pure ()
  | i, row :: rows => do
    let idx ← ofExcept (getInt4 row 2)
    call (idx.toInt ≠ i)
    rstInitQueryPlan pg p i row
    initQueryPlans p (i + 1) rows

/-- `MemoryContextAllocZero` for a module of so many rows. -/
def newModule (name : String) (rows : List QueryAttrs) : Code (Loader pg) ℕ := do
  let p ← allocate
  let m : PreparedModule pg := { name, rows, queries := List.replicate rows.length {} }
  update fun s => { s with modules := s.modules.store p m }
  pure p

def createModuleWithQueries (name : String) (input : ModuleInput) : Code (Loader pg) ℕ := do
  call (!input.queriesSelected)
  let tuptable ← allocate
  ensuring (do
      let p ← newModule pg name input.rows
      pgCatch (initQueryPlans pg p 0 input.rows) (do
        rstFreeModule (some p)
        raiseError)
      pure p)
    (release tuptable)

variable {pg}

/-- `load_heap_types`; `CommonHeapTypes` has one field. -/
def loadHeapTypes (p : ℕ) (heapTypes : List (BitVec 32)) : Code (Loader pg) Unit := do
  call (heapTypes.length ≠ 1)
  modify p fun m => { m with heapTypes := heapTypes }

/-- The local variables of `rst_prepare_module`. -/
structure Locals where
  pmod : Option ℕ := none
  tuptable : Option ℕ := none

/-- The end of `rst_prepare_module`: with a buffer (`none`), or with `load_aot_module` for the
    module. -/
def finish (p tuptable : ℕ) :
    Option (ℕ → Code (Loader pg) Unit) → Code (Loader pg × Locals) Unit
  | none => inner (modify p fun m => { m with loadingTuptable := some tuptable })
  | some load => do
    inner (load p)
    inner (modify p fun m => { m with module := true })
    inner (release tuptable)
    update fun t => (t.1, { t.2 with tuptable := none })

/-- What `rst_prepare_module` does on an error. -/
def cleanUp : Code (Loader pg × Locals) ℕ := do
  let t ← state
  inner (rstFreeModule t.2.pmod)
  inner (releaseSome t.2.tuptable)
  raiseError

variable (pg)

def rstPrepareModule (name : String) (input : ModuleInput)
    (load : Option (ℕ → Code (Loader pg) Unit)) : Code (Loader pg) ℕ := do
  call (name.utf8ByteSize > rstModuleNameMaxlen)
  withLocals ({} : Locals) (pgCatch (do
      let p ← inner (createModuleWithQueries pg name input)
      update fun t => (t.1, { t.2 with pmod := some p })
      inner (call (!input.rowSelected))
      let tuptable ← inner allocate
      update fun t => (t.1, { t.2 with tuptable := some tuptable })
      match input.heapTypes with
      | none => raiseError
      | some heapTypes => do
        inner (loadHeapTypes p heapTypes)
        finish p tuptable load
        pure p)
    cleanUp)

/-! ## The callbacks, and the runtime -/

def wasmModuleReaderCallback (name : String) (input : ModuleInput) :
    Code (Loader pg) (Option ℕ) :=
  pgCatch (do
      let p ← rstPrepareModule pg name input none
      pure (some p))
    (pure none)

variable {pg}

def wasmModuleCompleterCallback (p : ℕ) : Code (Loader pg) Unit := do
  modify p fun m => { m with module := true }
  let m ← contents p
  releaseSome m.loadingTuptable
  modify p fun m => { m with loadingTuptable := none }

def wasmModuleDestroyerCallback : Code (Loader pg) Unit := pure ()

/-- The module of an import, once it was read: its code is loaded, where `loadImports` is for its own
    imports, it is completed and registered, and `loadRest` goes on.  If it fails the destroyer is
    called. -/
def loadRead (type : PackageType) (name : String) (input : ModuleInput) (p : ℕ)
    (loadImports loadRest : Code (Loader pg) Bool) : Code (Loader pg) Bool :=
  if input.type ≠ some type then do
    wasmModuleDestroyerCallback
    raiseError
  else do
    let loaded ← loadImports
    if !loaded then do
      wasmModuleDestroyerCallback
      raiseError
    else do
      wasmModuleCompleterCallback p
      if !input.registers then do
        wasmModuleDestroyerCallback
        raiseError
      else do
        register name p
        loadRest

variable (pg)

/-- The imports of a module of some type.  Where a module cannot be loaded this is logged as an
    error, and to log an error is to raise it. -/
def loadImports (type : PackageType) : Imports → Code (Loader pg) Bool
  | .done loads => pure loads
  | .known rest => loadImports type rest
  | .depend name input imports rest => do
    match ← wasmModuleReaderCallback pg name input with
    | none => raiseError
    | some p => loadRead type name input p (loadImports type imports) (loadImports type rest)

/-- `load_aot_module`.  Where it raises an error the code is unloaded. -/
def loadAotModule (name : String) (input : ModuleInput) (imports : Imports) (p : ℕ) :
    Code (Loader pg) Unit := do
  match input.type with
  | none => raiseError
  | some type => do
    let loaded ← loadImports pg type imports
    call (!loaded)
    call (type = .bytecode)
    call (!input.rttCreated)
    call (!input.registers)
    register name p

/-- `rst_prepare_module` for a request. -/
def prepare (name : String) (input : ModuleInput) (imports : Imports) : Code (Loader pg) ℕ :=
  rstPrepareModule pg name input (some (loadAotModule pg name input imports))

/-! ## Who owns what -/

variable {pg}

def held (o : Option ℕ) : Multiset ℕ := o.elim 0 fun i => {i}

def Slot.owns (q : Slot pg) : Multiset ℕ := held q.plan + held q.block

def PreparedModule.owns (m : PreparedModule pg) : Multiset ℕ :=
  (m.queries.map Slot.owns).sum + held m.loadingTuptable

/-- A pointer, and what the module there owns. -/
def Loader.ownedBy (s : Loader pg) (p : ℕ) : Multiset ℕ :=
  {p} + (s.modules.get? p).elim 0 PreparedModule.owns

/-- What the registered modules own. -/
def Loader.owned (s : Loader pg) : Multiset ℕ :=
  (s.registered.map fun r => s.ownedBy r.2).sum

/-- The module has exactly the queries of its rows. -/
def PreparedModule.Complete (m : PreparedModule pg) : Prop :=
  ∃ qs, Rustica.initQueryPlans pg 0 m.rows = .ok qs ∧ m.queries.map Slot.query = qs.map some

/-! ## Freeing -/

variable {s s' : Loader pg} {p i k : ℕ} {m : PreparedModule pg} {F : Multiset ℕ} {α : Type}

@[simp] theorem held_none : held none = 0 := rfl

@[simp] theorem held_some (i : ℕ) : held (some i) = {i} := rfl

@[simp] theorem wp_allocate {Q : Ending ℕ → Loader pg → Prop} :
    wp allocate Q s ↔ Q (.returned s.arena.next) { s with arena := s.arena.alloc } := Iff.rfl

theorem wp_release {Q : Ending Unit → Loader pg → Prop} (h : s.arena.live = {i} + F) :
    wp (release i) Q s ↔ Q (.returned ()) { s with arena := s.arena.free i } :=
  wp_lift.trans (Arena.wp_release h)

theorem wp_contents {Q : Ending (PreparedModule pg) → Loader pg → Prop}
    (h : s.modules.get? p = some m) : wp (contents p) Q s ↔ Q (.returned m) s := by
  rw [wp, contents, h]

theorem wp_modify {f : PreparedModule pg → PreparedModule pg} {Q : Ending Unit → Loader pg → Prop}
    (h : s.modules.get? p = some m) :
    wp (modify p f) Q s ↔ Q (.returned ()) { s with modules := s.modules.store p (f m) } := by
  rw [modify, wp_bind, wp_contents h]
  exact Iff.rfl

/-- Only allocations are freed, and `F` is left. -/
structure Freed (F : Multiset ℕ) (s s' : Loader pg) : Prop where
  live : s'.arena.live = F
  modules : s'.modules = s.modules
  registered : s'.registered = s.registered
  next : s'.arena.next = s.arena.next

theorem Freed.trans {G : Multiset ℕ} {s'' : Loader pg} (h : Freed G s s') (h' : Freed F s' s'') :
    Freed F s s'' :=
  ⟨h'.live, h'.modules.trans h.modules, h'.registered.trans h.registered, h'.next.trans h.next⟩

/-- The modules below `k` and the registration are left alone. -/
structure Beyond (k : ℕ) (s s' : Loader pg) : Prop where
  modules : ∀ q < k, s'.modules.get? q = s.modules.get? q
  registered : s'.registered = s.registered
  next : s.arena.next ≤ s'.arena.next

theorem Beyond.refl (k : ℕ) (s : Loader pg) : Beyond k s s := ⟨fun _ _ => rfl, rfl, le_rfl⟩

theorem Beyond.trans {s'' : Loader pg} (h : Beyond k s s') (h' : Beyond k s' s'') :
    Beyond k s s'' :=
  ⟨fun q hq => (h'.modules q hq).trans (h.modules q hq), h'.registered.trans h.registered,
    h.next.trans h'.next⟩

theorem Freed.beyond (h : Freed F s s') (k : ℕ) : Beyond k s s' :=
  ⟨fun q _ => by rw [h.modules], h.registered, h.next.ge⟩

theorem wp_releaseSome {o : Option ℕ} (h : s.arena.live = held o + F) :
    wp (releaseSome o) (fun e s' => e = .returned () ∧ Freed F s s') s := by
  cases o with
  | none =>
    rw [held_none, zero_add] at h
    exact ⟨rfl, h, rfl, rfl, rfl⟩
  | some i =>
    rw [releaseSome, wp_release h]
    exact ⟨rfl, Arena.live_free h, rfl, rfl, rfl⟩

theorem wp_freeQueryPlan {q : Slot pg} (h : s.arena.live = q.owns + F) :
    wp (rstFreeQueryPlan q) (fun e s' => e = .returned () ∧ Freed F s s') s := by
  rw [Slot.owns, add_assoc] at h
  rw [rstFreeQueryPlan, wp_bind]
  refine wp_mono (wp_releaseSome h) ?_
  rintro e s₁ ⟨rfl, h₁⟩
  rw [andThen_returned]
  refine wp_mono (wp_releaseSome h₁.live) ?_
  rintro e s₂ ⟨rfl, h₂⟩
  exact ⟨rfl, h₁.trans h₂⟩

theorem wp_freeQueryPlans {qs : List (Slot pg)} (h : s.arena.live = (qs.map Slot.owns).sum + F) :
    wp (freeQueryPlans qs) (fun e s' => e = .returned () ∧ Freed F s s') s := by
  induction qs generalizing s with
  | nil =>
    rw [List.map_nil, List.sum_nil, zero_add] at h
    exact ⟨rfl, h, rfl, rfl, rfl⟩
  | cons q qs ih =>
    rw [List.map_cons, List.sum_cons, add_assoc] at h
    rw [freeQueryPlans, wp_bind]
    refine wp_mono (wp_freeQueryPlan h) ?_
    rintro e s₁ ⟨rfl, h₁⟩
    rw [andThen_returned]
    refine wp_mono (ih h₁.live) ?_
    rintro e s₂ ⟨rfl, h₂⟩
    exact ⟨rfl, h₁.trans h₂⟩

/-- The modules other than that at `p` and the registration are left alone. -/
structure Elsewhere (p : ℕ) (s s' : Loader pg) : Prop where
  modules : ∀ q, q ≠ p → s'.modules.get? q = s.modules.get? q
  registered : s'.registered = s.registered
  next : s.arena.next ≤ s'.arena.next

theorem Elsewhere.beyond (h : Elsewhere p s s') (hk : k ≤ p) : Beyond k s s' :=
  ⟨fun q hq => h.modules q (hq.trans_le hk).ne, h.registered, h.next⟩

/-- The module `m` is at `p`, and all that is live is what it owns and `F`. -/
structure Has (p : ℕ) (m : PreparedModule pg) (F : Multiset ℕ) (s : Loader pg) : Prop where
  content : s.modules.get? p = some m
  live : s.arena.live = {p} + m.owns + F

/-- **A module is freed** with all that it owns. -/
theorem wp_freeModule (h : Has p m F s) (hm : m.module = false) :
    wp (rstFreeModule (some p)) (fun e s' => e = .returned () ∧ s'.arena.live = F ∧ Elsewhere p s s')
      s := by
  have hlive : s.arena.live =
      (m.queries.map Slot.owns).sum + (held m.loadingTuptable + ({p} + F)) := by
    rw [h.live, PreparedModule.owns]
    abel
  rw [rstFreeModule, wp_bind, wp_contents h.content, andThen_returned, wp_bind]
  refine wp_mono (wp_freeQueryPlans hlive) ?_
  rintro e s₁ ⟨rfl, h₁⟩
  rw [andThen_returned, hm]
  simp only [Bool.false_eq_true, if_false, wp_bind]
  refine wp_mono (wp_releaseSome h₁.live) ?_
  rintro e s₂ ⟨rfl, h₂⟩
  have h12 := h₁.trans h₂
  rw [andThen_returned, wp_bind, wp_release h₂.live]
  refine ⟨rfl, Arena.live_free h₂.live, fun q hq => ?_, h12.registered, h12.next.ge⟩
  change (s₂.modules.free p).get? q = s.modules.get? q
  rw [Memory.get?_free_of_ne hq, h12.modules]

/-! ## Making -/

theorem modify_append {β : Type} (l : List β) (x : β) (l' : List β) (f : β → β) :
    (l ++ x :: l').modify l.length f = l ++ f x :: l' := by
  induction l with
  | nil => rfl
  | cons y l ih => rw [List.cons_append, List.length_cons, List.modify_succ_cons, ih,
      List.cons_append]

/-- The module `m` with the plans `l`, one that is being made, and the rest. -/
def PreparedModule.making (m : PreparedModule pg) (l : List (Slot pg)) (q : Slot pg)
    (rest : List (Slot pg)) : PreparedModule pg :=
  { m with queries := l ++ q :: rest }

variable {l rest : List (Slot pg)} {q : Slot pg}

theorem wp_setSlot {f : Slot pg → Slot pg} {Q : Ending Unit → Loader pg → Prop}
    (h : s.modules.get? p = some (m.making l q rest)) :
    wp (setSlot p l.length f) Q s ↔
      Q (.returned ()) { s with modules := s.modules.store p (m.making l (f q) rest) } := by
  rw [setSlot, wp_modify h, PreparedModule.making, modify_append]
  rfl

theorem PreparedModule.owns_making (m : PreparedModule pg) (l : List (Slot pg)) (q : Slot pg)
    (rest : List (Slot pg)) : (m.making l q rest).owns = q.owns + (m.making l {} rest).owns := by
  have hnone : Slot.owns ({} : Slot pg) = 0 := rfl
  simp only [PreparedModule.making, owns, List.map_append, List.map_cons, List.sum_append,
    List.sum_cons, hnone]
  abel

/-- **Something is allocated** for the plan that is being made. -/
theorem wp_allocSlot {c : Code (Loader pg) α} {f : ℕ → Slot pg → Slot pg}
    {Q : Ending α → Loader pg → Prop} (h : Has p (m.making l q rest) F s) (hk : k ≤ p)
    (hf : ∀ i, (f i q).owns = {i} + q.owns)
    (hQ : ∀ i s', Beyond k s s' → Has p (m.making l (f i q) rest) F s' → wp c Q s') :
    wp (do
      let i ← allocate
      setSlot p l.length (f i)
      c) Q s := by
  have hcontent : ({ s with arena := s.arena.alloc } : Loader pg).modules.get? p =
      some (m.making l q rest) := h.content
  rw [wp_bind, wp_allocate, andThen_returned, wp_bind, wp_setSlot hcontent, andThen_returned]
  refine hQ s.arena.next _ ⟨fun r hr => ?_, rfl, Nat.le_succ _⟩ ⟨Memory.get?_store_self, ?_⟩
  · exact Memory.get?_store_of_ne (hr.trans_le hk).ne
  · change {s.arena.next} + s.arena.live = _
    rw [h.live, PreparedModule.owns_making m l q, PreparedModule.owns_making m l (f s.arena.next q), hf]
    abel

theorem Has.setQuery (h : Has p (m.making l q rest) F s) (f : Slot pg → Slot pg)
    (hf : (f q).owns = q.owns) :
    Has p (m.making l (f q) rest) F { s with modules := s.modules.store p (m.making l (f q) rest) } where
  content := Memory.get?_store_self
  live := by
    change s.arena.live = _
    rw [h.live, PreparedModule.owns_making m l q, PreparedModule.owns_making m l (f q), hf]

theorem Beyond.store (hk : k ≤ p) (m : PreparedModule pg) :
    Beyond k s { s with modules := s.modules.store p m } :=
  ⟨fun _ hr => Memory.get?_store_of_ne (hr.trans_le hk).ne, rfl, le_rfl⟩

/-- What a row comes to, where it should come to `r`, and what is left of its plan. -/
def InitDone (k p : ℕ) (m : PreparedModule pg) (l rest : List (Slot pg)) (F : Multiset ℕ)
    (s : Loader pg) (r : Except LoadError (QueryPlan pg)) (e : Ending Unit) (s' : Loader pg) : Prop :=
  Beyond k s s' ∧ ∃ q, Has p (m.making l q rest) F s' ∧
    match e with
    | .returned _ => ∃ plan, r = .ok plan ∧ q.query = some plan
    | .raised => ∃ err, r = .error err
    | .crashed => False

theorem InitDone.failed {s' : Loader pg} (hb : Beyond k s s') (h : Has p (m.making l q rest) F s')
    (err : LoadError) : InitDone k p m l rest F s (.error err) .raised s' :=
  ⟨hb, q, h, err, rfl⟩

/-- The end of a row, for a plan that has all that it will own. -/
theorem wp_initTail {s₁ : Loader pg} {row : QueryAttrs} {nattrs : ℕ}
    {mk : Option RefType × List Oid × List RefType → List (BitVec 32) → QueryPlan pg}
    (hb : Beyond k s s₁) (h : Has p (m.making l q rest) F s₁) (hk : k ≤ p) :
    wp (do
      let result ← ofExcept (initResult row nattrs)
      let retFns ← ofExcept (getInt4s row 11)
      call (retFns.length ≠ nattrs)
      setSlot p l.length fun q => { q with query := some (mk result retFns) })
    (InitDone k p m l rest F s do
      let result ← initResult row nattrs
      let retFns ← getInt4s row 11
      if retFns.length ≠ nattrs then throw (.retFieldFn retFns.length nattrs)
      return mk result retFns) s₁ := by
  refine wp_ofExcept_bind (Q := InitDone k p m l rest F s) (.failed hb h) fun result _ => ?_
  refine wp_ofExcept_bind (Q := InitDone k p m l rest F s) (.failed hb h) fun retFns _ => ?_
  refine wp_check (Q := InitDone k p m l rest F s) (by simp) ⟨_, rfl⟩ (.failed hb h) fun _ => ?_
  rw [wp_setSlot h.content]
  exact ⟨hb.trans (.store hk _), _,
    h.setQuery (fun q => { q with query := some (mk result retFns) }) rfl, _, rfl, rfl⟩

/-- **A plan**: it is made exactly if the row is good, and else the module holds what there is of it. -/
theorem wp_initQueryPlan {row : QueryAttrs} (h : Has p (m.making l {} rest) F s) (hk : k ≤ p) :
    wp (rstInitQueryPlan pg p l.length row)
      (InitDone k p m l rest F s (Rustica.rstInitQueryPlan pg row)) s := by
  have hb := Beyond.refl k s
  rw [rstInitQueryPlan, Rustica.rstInitQueryPlan]
  refine wp_ofExcept_bind (Q := InitDone k p m l rest F s) (.failed hb h) fun sql _ => ?_
  refine wp_ofExcept_bind (Q := InitDone k p m l rest F s) (.failed hb h) fun argtypes _ => ?_
  dsimp only
  cases pg.spiPrepare (cstring sql) argtypes with
  | none => exact .failed hb h _
  | some plan =>
  refine wp_check (Q := InitDone k p m l rest F s) Iff.rfl ⟨_, rfl⟩ (.failed hb h) fun _ => ?_
  refine wp_allocSlot h hk (fun i => by simp [Slot.owns]) fun i s₁ hb₁ h₁ => ?_
  refine wp_ofExcept_bind (Q := InitDone k p m l rest F s) (.failed hb₁ h₁) fun fns _ => ?_
  refine wp_check (Q := InitDone k p m l rest F s) (by simp) ⟨_, rfl⟩ (.failed hb₁ h₁) fun _ => ?_
  by_cases hblock : 0 < argtypes.length + (pg.resultDesc plan).getD 0
  · rw [if_pos hblock]
    refine wp_allocSlot h₁ hk (fun i => ?_) fun i s₂ hb₂ h₂ => ?_
    · simp [Slot.owns, add_comm]
    · exact wp_initTail (hb₁.trans hb₂) h₂ hk
  · rw [if_neg hblock]
    exact wp_initTail hb₁ h₁ hk

/-- What the rows come to: the plans of all of them, or of some and an error. -/
def RowsDone (k p : ℕ) (m : PreparedModule pg) (l : List (Slot pg)) (F : Multiset ℕ)
    (s : Loader pg) (r : Except LoadError (List (QueryPlan pg))) (e : Ending Unit)
    (s' : Loader pg) : Prop :=
  Beyond k s s' ∧ ∃ qs, Has p { m with queries := l ++ qs } F s' ∧
    match e with
    | .returned _ => ∃ plans, r = .ok plans ∧ qs.map Slot.query = plans.map some
    | .raised => ∃ err, r = .error err
    | .crashed => False

/-- **The rows**, from some index on. -/
theorem wp_initQueryPlans {rows : List QueryAttrs}
    (h : Has p { m with queries := l ++ List.replicate rows.length {} } F s) (hk : k ≤ p) :
    wp (initQueryPlans pg p l.length rows)
      (RowsDone k p m l F s (Rustica.initQueryPlans pg l.length rows)) s := by
  induction rows generalizing l s with
  | nil => exact ⟨.refl k s, [], h, [], rfl, rfl⟩
  | cons row rows ih =>
    have hb := Beyond.refl k s
    have hfail : ∀ err, RowsDone k p m l F s (.error err) .raised s := fun err =>
      ⟨hb, _, h, err, rfl⟩
    rw [initQueryPlans, Rustica.initQueryPlans]
    refine wp_ofExcept_bind (Q := RowsDone k p m l F s) hfail fun idx _ => ?_
    refine wp_check (Q := RowsDone k p m l F s) (by simp) ⟨_, rfl⟩ hfail fun _ => ?_
    rw [wp_bind]
    refine wp_mono (wp_initQueryPlan h hk) ?_
    rintro e s₁ ⟨hb₁, q, h₁, he⟩
    cases e with
    | returned a =>
      obtain ⟨plan, hplan, hq⟩ := he
      have hnext : Has p { m with queries := (l ++ [q]) ++ List.replicate rows.length {} } F s₁ := by
        rw [List.append_assoc]
        exact h₁
      have hih := ih hnext
      rw [List.length_append, List.length_singleton] at hih
      rw [andThen_returned, hplan]
      refine wp_mono hih ?_
      rintro e s₂ ⟨hb₂, qs, h₂, he⟩
      rw [List.append_assoc] at h₂
      refine ⟨hb₁.trans hb₂, q :: qs, h₂, ?_⟩
      cases e with
      | returned a =>
        obtain ⟨plans, hplans, hqs⟩ := he
        rw [hplans]
        exact ⟨plan :: plans, rfl, by rw [List.map_cons, List.map_cons, hq, hqs]⟩
      | raised =>
        obtain ⟨err, herr⟩ := he
        rw [herr]
        exact ⟨err, rfl⟩
      | crashed => exact he
    | raised =>
      obtain ⟨err, herr⟩ := he
      rw [andThen_raised, herr]
      exact ⟨hb₁, _, h₁, err, rfl⟩
    | crashed => exact he.elim

/-- A module as it is made by `create_module_with_queries`, or by `wasm_module_reader_callback` with
    its tuple table. -/
structure Created (k : ℕ) (name : String) (rows : List QueryAttrs) (tuptable : Option ℕ)
    (F : Multiset ℕ) (s : Loader pg) (p : ℕ) (m : PreparedModule pg) (s' : Loader pg) : Prop where
  has : Has p m F s'
  beyond : Beyond k s s'
  le : k ≤ p
  lt : p < s'.arena.next
  name : m.name = name
  rows : m.rows = rows
  complete : m.Complete
  module : m.module = false
  loadingTuptable : m.loadingTuptable = tuptable

/-- An empty module. -/
theorem wp_newModule (name : String) (rows : List QueryAttrs) (hF : s.arena.live = F)
    (hk : k ≤ s.arena.next) :
    wp (newModule pg name rows) (fun e s' => ∃ p, e = .returned p ∧ k ≤ p ∧ p < s'.arena.next ∧
      Has p { name, rows, queries := [] ++ List.replicate rows.length {} } F s' ∧ Beyond k s s') s := by
  have hempty : ((List.replicate rows.length ({} : Slot pg)).map Slot.owns).sum = 0 := by
    rw [List.map_replicate, List.sum_replicate]
    exact smul_zero _
  refine ⟨s.arena.next, rfl, hk, Nat.lt_succ_self _, ⟨Memory.get?_store_self, ?_⟩,
    fun r hr => Memory.get?_store_of_ne (hr.trans_le hk).ne, rfl, Nat.le_succ _⟩
  change {s.arena.next} + s.arena.live = _
  rw [hF, List.nil_append, PreparedModule.owns, hempty, held_none, add_zero, add_zero]

/-- Its queries, or an error, and nothing is left of it. -/
theorem wp_fillModule {rows : List QueryAttrs}
    (h : Has p { m with queries := [] ++ List.replicate rows.length {} } F s) (hk : k ≤ p)
    (hm : m.module = false) :
    wp (pgCatch (initQueryPlans pg p 0 rows) (do
        rstFreeModule (some p)
        raiseError))
      (fun e s' => Beyond k s s' ∧ match e with
        | .returned _ => ∃ qs plans, Has p { m with queries := qs } F s' ∧
            Rustica.initQueryPlans pg 0 rows = .ok plans ∧ qs.map Slot.query = plans.map some
        | .raised => s'.arena.live = F ∧ ∃ err, Rustica.initQueryPlans pg 0 rows = .error err
        | .crashed => False) s := by
  rw [wp_pgCatch]
  refine wp_mono (wp_initQueryPlans h hk) ?_
  rintro e s₁ ⟨hb₁, qs, h₁, he⟩
  cases e with
  | returned a =>
    obtain ⟨plans, hplans, hqs⟩ := he
    exact ⟨hb₁, qs, plans, h₁, hplans, hqs⟩
  | raised =>
    dsimp only
    rw [wp_bind]
    refine wp_mono (wp_freeModule h₁ hm) ?_
    rintro e s₂ ⟨rfl, hlive, h₂⟩
    exact ⟨hb₁.trans (h₂.beyond hk), hlive, he⟩
  | crashed => exact he.elim

theorem Beyond.release (h : Beyond k s s') (i : ℕ) :
    Beyond k s { s' with arena := s'.arena.free i } := ⟨h.modules, h.registered, h.next⟩

theorem Beyond.allocate (h : Beyond k s s') : Beyond k s { s' with arena := s'.arena.alloc } :=
  ⟨h.modules, h.registered, h.next.trans (Nat.le_succ _)⟩

/-- **The module with its queries**, or an error, and nothing is left of it. -/
theorem wp_createModuleWithQueries (name : String) (input : ModuleInput) (hF : s.arena.live = F)
    (hk : k ≤ s.arena.next) :
    wp (createModuleWithQueries pg name input) (fun e s' => match e with
      | .returned p => input.queriesSelected = true ∧ ∃ m, Created k name input.rows none F s p m s'
      | .raised => ¬ (input.queriesSelected = true ∧
            ∃ plans, Rustica.initQueryPlans pg 0 input.rows = .ok plans) ∧
          s'.arena.live = F ∧ Beyond k s s'
      | .crashed => False) s := by
  rw [createModuleWithQueries, wp_bind, wp_call]
  constructor
  · intro hsel
    refine ⟨fun h => ?_, hF, .refl k s⟩
    rw [h.1] at hsel
    cases hsel
  intro hsel
  have hsel : input.queriesSelected = true := by simpa using hsel
  rw [andThen_returned, wp_bind, wp_allocate, andThen_returned, wp_ensuring]
  -- the tuple table is freed in any case
  have hlive : ({ s with arena := s.arena.alloc } : Loader pg).arena.live = {s.arena.next} + F := by
    rw [← hF]
    rfl
  have hb : Beyond k s { s with arena := s.arena.alloc } := (Beyond.refl k s).allocate
  rw [wp_bind]
  refine wp_mono (wp_newModule name input.rows hlive (hk.trans (Nat.le_succ _))) ?_
  rintro e s₁ ⟨p, rfl, hkp, hlt, h₁, hb₁⟩
  rw [andThen_returned, wp_bind]
  let m : PreparedModule pg := { name, rows := input.rows, queries := [] }
  refine wp_mono (wp_fillModule (m := m) h₁ hkp rfl) ?_
  rintro e s₂ ⟨hb₂, he⟩
  have hb₁₂ := (hb.trans hb₁).trans hb₂
  cases e with
  | returned a =>
    obtain ⟨qs, plans, h₂, hplans, hqs⟩ := he
    have hlive₂ : s₂.arena.live =
        {s.arena.next} + ({p} + PreparedModule.owns { m with queries := qs } + F) := by
      rw [h₂.live]
      abel
    rw [andThen_returned, wp_pure]
    dsimp only [id]
    rw [wp_release hlive₂]
    exact ⟨hsel, _, ⟨h₂.content, Arena.live_free hlive₂⟩, hb₁₂.release _, hkp,
      hlt.trans_le hb₂.next, rfl, rfl, ⟨plans, hplans, hqs⟩, rfl, rfl⟩
  | raised =>
    obtain ⟨hlive₂, err, herr⟩ := he
    rw [andThen_raised]
    dsimp only [id]
    rw [wp_release hlive₂]
    refine ⟨?_, Arena.live_free hlive₂, hb₁₂.release _⟩
    rintro ⟨-, plans, hplans⟩
    rw [herr] at hplans
    cases hplans
  | crashed => exact he.elim

variable {name : String} {o : Option ℕ}

theorem Created.allocate {s₁ : Loader pg} {rows : List QueryAttrs}
    (h : Created k name rows o F s p m s₁) :
    Created k name rows o ({s₁.arena.next} + F) s p m { s₁ with arena := s₁.arena.alloc } where
  has := ⟨h.has.content, by
    change {s₁.arena.next} + s₁.arena.live = _
    rw [h.has.live]
    abel⟩
  beyond := h.beyond.allocate
  le := h.le
  lt := h.lt.trans (Nat.lt_succ_self _)
  name := h.name
  rows := h.rows
  complete := h.complete
  module := h.module
  loadingTuptable := h.loadingTuptable

/-- The rows of such a module are good. -/
theorem Created.complete_rows {s₁ : Loader pg} {rows : List QueryAttrs}
    (h : Created k name rows o F s p m s₁) :
    ∃ plans, Rustica.initQueryPlans pg 0 rows = .ok plans := by
  obtain ⟨plans, hplans, -⟩ := h.complete
  rw [h.rows] at hplans
  exact ⟨plans, hplans⟩

/-! ## Preparing -/

/-- The module can be read: its name is short, its queries and its row are found, and are good. -/
def ModuleInput.reads (pg : Postgres) (name : String) (input : ModuleInput) : Bool :=
  name.utf8ByteSize ≤ rstModuleNameMaxlen && input.queriesSelected &&
    (Rustica.initQueryPlans pg 0 input.rows).toBool && input.rowSelected &&
    input.heapTypes.any fun h => h.length = 1

variable {input : ModuleInput}

theorem ModuleInput.reads_iff : input.reads pg name = true ↔
    name.utf8ByteSize ≤ rstModuleNameMaxlen ∧ input.queriesSelected = true ∧
      (∃ plans, Rustica.initQueryPlans pg 0 input.rows = .ok plans) ∧ input.rowSelected = true ∧
      ∃ h, input.heapTypes = some h ∧ h.length = 1 := by
  have hok : (Rustica.initQueryPlans pg 0 input.rows).toBool = true ↔
      ∃ plans, Rustica.initQueryPlans pg 0 input.rows = .ok plans := by
    cases Rustica.initQueryPlans pg 0 input.rows <;> simp [Except.toBool]
  simp only [reads, Bool.and_eq_true, decide_eq_true_eq, hok, Option.any_eq_true, and_assoc]

theorem Created.loadHeapTypes {s₁ : Loader pg} {rows : List QueryAttrs}
    (h : Created k name rows o F s p m s₁) {heapTypes : List (BitVec 32)} :
    wp (loadHeapTypes p heapTypes) (fun e s₂ => match e with
      | .returned _ => heapTypes.length = 1 ∧ ∃ m', Created k name rows o F s p m' s₂
      | .raised => heapTypes.length ≠ 1 ∧ s₂ = s₁
      | .crashed => False) s₁ := by
  rw [Loading.loadHeapTypes, wp_bind, wp_call]
  constructor
  · intro hlen
    exact ⟨by simpa using hlen, rfl⟩
  intro hlen
  rw [andThen_returned, id_eq, wp_modify h.has.content]
  exact ⟨by simpa using hlen, _, ⟨⟨Memory.get?_store_self, h.has.live⟩,
    h.beyond.trans (.store h.le _), h.le, h.lt, h.name, h.rows, h.complete, h.module,
    h.loadingTuptable⟩⟩

/-- **The cleanup** frees the module and the tuple table. -/
theorem wp_cleanUp (h : Has p m (held o + F) s) (hm : m.module = false) :
    wp cleanUp (fun e l => e = .raised ∧ l.1.arena.live = F ∧ Elsewhere p s l.1)
      (s, { pmod := some p, tuptable := o }) := by
  rw [cleanUp, wp_bind, wp_state, andThen_returned, wp_bind, wp_inner]
  refine wp_mono (wp_freeModule h hm) ?_
  rintro e s₁ ⟨rfl, hlive₁, h₁⟩
  rw [andThen_returned, wp_bind, wp_inner]
  refine wp_mono (wp_releaseSome hlive₁) ?_
  rintro e s₂ ⟨rfl, h₂⟩
  refine ⟨rfl, h₂.live, fun q hq => ?_, h₂.registered.trans h₁.registered, ?_⟩
  · exact (congrArg (fun mem => mem.get? q) h₂.modules).trans (h₁.modules q hq)
  · exact h₁.next.trans h₂.next.ge

/-- **Rule for the load of a module**: it cannot be read, and nothing is left of it, or it is there
    with a tuple table and the rest decides. -/
theorem wp_rstPrepareModule {load : Option (ℕ → Code (Loader pg) Unit)}
    {Q : Ending ℕ → Loader pg → Prop} (hF : s.arena.live = F) (hk : k ≤ s.arena.next)
    (hfail : ∀ s', ¬ input.reads pg name → s'.arena.live = F → Beyond k s s' → Q .raised s')
    (hfinish : ∀ p m t s', input.reads pg name →
      Created k name input.rows none ({t} + F) s p m s' →
      wp (finish p t load) (fun e l => match e with
        | .returned _ => Q (.returned p) l.1
        | .raised => wp cleanUp (fun e l => Q e l.1) l
        | .crashed => Q .crashed l.1) (s', { pmod := some p, tuptable := some t })) :
    wp (rstPrepareModule pg name input load) Q s := by
  rw [rstPrepareModule, wp_bind, wp_call]
  constructor
  · intro hlen
    have hlen : ¬ name.utf8ByteSize ≤ rstModuleNameMaxlen := by simpa using hlen
    exact hfail s (fun h => hlen (ModuleInput.reads_iff.1 h).1) hF (.refl k s)
  intro hlen
  have hlen : name.utf8ByteSize ≤ rstModuleNameMaxlen := by simpa using hlen
  rw [andThen_returned, id_eq, wp_withLocals, wp_pgCatch, wp_bind, wp_inner]
  refine wp_mono (wp_createModuleWithQueries name input hF hk) ?_
  intro e s₁ he
  cases e with
  | crashed => exact he.elim
  | raised =>
    obtain ⟨hnot, hlive, hb⟩ := he
    refine hfail s₁ (fun h => hnot ?_) hlive hb
    obtain ⟨-, hsel, hplans, -⟩ := ModuleInput.reads_iff.1 h
    exact ⟨hsel, hplans⟩
  | returned p =>
  obtain ⟨hsel, m, h₁⟩ := he
  -- from here on the cleanup has a module to free
  have hcleanUp : ∀ {o m s'}, ¬ input.reads pg name →
      Created k name input.rows none (held o + F) s p m s' →
      wp cleanUp (fun e l => Q e l.1) (s', { pmod := some p, tuptable := o }) := by
    intro o m s' hread h
    refine wp_mono (wp_cleanUp h.has h.module) ?_
    rintro e ⟨s₂, l⟩ ⟨rfl, hlive, h₂⟩
    exact hfail s₂ hread hlive (h.beyond.trans (h₂.beyond h.le))
  rw [andThen_returned, wp_bind, wp_update, andThen_returned, wp_bind, wp_inner, wp_call]
  constructor
  · intro hrow
    refine hcleanUp (o := none) (m := m) (fun h => ?_) (by rwa [held_none, zero_add])
    obtain ⟨-, -, -, hsel', -⟩ := ModuleInput.reads_iff.1 h
    rw [hsel'] at hrow
    cases hrow
  intro hrow
  have hrow : input.rowSelected = true := by simpa using hrow
  rw [andThen_returned, wp_bind, wp_inner, id_eq, wp_allocate, andThen_returned, wp_bind,
    wp_update, andThen_returned]
  have h₂ := h₁.allocate
  cases hheap : input.heapTypes with
  | none =>
    refine hcleanUp (fun h => ?_) h₂
    obtain ⟨-, -, -, -, l, hl, -⟩ := ModuleInput.reads_iff.1 h
    rw [hheap] at hl
    cases hl
  | some heapTypes =>
  rw [wp_bind, wp_inner]
  refine wp_mono h₂.loadHeapTypes ?_
  intro e s₃ he
  cases e with
  | crashed => exact he.elim
  | raised =>
    obtain ⟨hlength, rfl⟩ := he
    refine hcleanUp (fun h => ?_) h₂
    obtain ⟨-, -, -, -, l, hl, hlen'⟩ := ModuleInput.reads_iff.1 h
    rw [hheap] at hl
    cases hl
    exact hlength hlen'
  | returned a =>
    obtain ⟨hlength, m', h₃⟩ := he
    have hreads : input.reads pg name :=
      ModuleInput.reads_iff.2 ⟨hlen, hsel, h₁.complete_rows, hrow, heapTypes, hheap, hlength⟩
    rw [andThen_returned, wp_bind]
    refine wp_mono (hfinish p m' _ s₃ hreads h₃) ?_
    intro e l he
    cases e with
    | returned _ | raised | crashed => exact he

/-! ## Registered modules -/

/-- Every registered module is whole: it is there under its name, with its code and exactly the
    queries of its rows, and its tuple table is freed. -/
def Loader.Whole (s : Loader pg) : Prop :=
  ∀ r ∈ s.registered, r.2 < s.arena.next ∧ ∃ m, s.modules.get? r.2 = some m ∧ m.name = r.1 ∧
    m.module = true ∧ m.loadingTuptable = none ∧ m.Complete

/-- Nothing is being loaded: the registered modules are whole, and all that is live is theirs. -/
structure Loader.Settled (s : Loader pg) : Prop where
  whole : s.Whole
  live : s.arena.live = s.owned

theorem Loader.mem_owned {r : String × ℕ} (h : r ∈ s.registered) : r.2 ∈ s.owned := by
  obtain ⟨l, l', hl⟩ := List.append_of_mem h
  simp [owned, hl, ownedBy]

/-- A module that does not belong to the registered ones is none of them. -/
theorem Has.ne_of_registered {X : Multiset ℕ} (h : Has p m (X + s.owned) s) {r : String × ℕ}
    (hr : r ∈ s.registered) : r.2 ≠ p := by
  rintro rfl
  have hnodup := s.arena.nodup
  rw [h.live, add_assoc, Multiset.singleton_add, Multiset.nodup_cons] at hnodup
  refine hnodup.1 ?_
  simp only [Multiset.mem_add]
  exact .inr (.inr (Loader.mem_owned hr))

/-- **The registered modules stay as they are** if they are left alone. -/
theorem Loader.Whole.congr (h : s.Whole) (hreg : s'.registered = s.registered)
    (hmod : ∀ r ∈ s.registered, s'.modules.get? r.2 = s.modules.get? r.2)
    (hnext : s.arena.next ≤ s'.arena.next) : s'.Whole ∧ s'.owned = s.owned := by
  constructor
  · intro r hr
    rw [hreg] at hr
    rw [hmod r hr]
    exact ⟨(h r hr).1.trans_le hnext, (h r hr).2⟩
  · rw [owned, owned, hreg]
    congr 1
    refine List.map_congr_left fun r hr => ?_
    rw [ownedBy, ownedBy, hmod r hr]

theorem Loader.Whole.beyond (h : s.Whole) (hb : Beyond s.arena.next s s') :
    s'.Whole ∧ s'.owned = s.owned :=
  h.congr hb.registered (fun r hr => hb.modules _ (h r hr).1) hb.next

theorem Loader.Whole.elsewhere (h : s.Whole) {X : Multiset ℕ} (hp : Has p m (X + s.owned) s)
    (he : Elsewhere p s s') : s'.Whole ∧ s'.owned = s.owned :=
  h.congr he.registered (fun _ hr => he.modules _ (hp.ne_of_registered hr)) he.next

/-- **Registration**: the module becomes one of those that are registered, and what it owns theirs. -/
theorem Loader.Whole.register (h : s.Whole) {X : Multiset ℕ} (hp : Has p m (X + s.owned) s)
    (hlt : p < s.arena.next) (hname : m.name = name) (hmodule : m.module = true)
    (htuptable : m.loadingTuptable = none) (hcomplete : m.Complete) :
    Loader.Whole { s with registered := (name, p) :: s.registered } ∧
      s.arena.live = X + Loader.owned { s with registered := (name, p) :: s.registered } := by
  constructor
  · intro r hr
    rcases List.mem_cons.1 hr with rfl | hr
    · exact ⟨hlt, m, hp.content, hname, hmodule, htuptable, hcomplete⟩
    · exact h r hr
  · have hby : Loader.ownedBy s p = {p} + m.owns := by
      rw [ownedBy, hp.content]
      rfl
    change _ = X + (Loader.ownedBy s p + s.owned)
    rw [hp.live, hby]
    abel

/-- The modules that are registered stay, and `new` are registered before them. -/
structure Grown (new : List String) (s s' : Loader pg) : Prop where
  modules : ∀ q < s.arena.next, s'.modules.get? q = s.modules.get? q
  next : s.arena.next ≤ s'.arena.next
  registered : ∃ rs, s'.registered = rs ++ s.registered ∧ rs.map Prod.fst = new

variable {new : List String}

theorem Grown.refl (s : Loader pg) : Grown [] s s := ⟨fun _ _ => rfl, le_rfl, [], rfl, rfl⟩

theorem Grown.trans {new' : List String} {s'' : Loader pg} (h : Grown new s s')
    (h' : Grown new' s' s'') : Grown (new' ++ new) s s'' := by
  obtain ⟨rs, hrs, hnew⟩ := h.registered
  obtain ⟨rs', hrs', hnew'⟩ := h'.registered
  refine ⟨fun q hq => ?_, h.next.trans h'.next, rs' ++ rs, ?_, ?_⟩
  · rw [h'.modules q (hq.trans_le h.next), h.modules q hq]
  · rw [hrs', hrs, List.append_assoc]
  · rw [List.map_append, hnew, hnew']

theorem Beyond.grown (h : Beyond s.arena.next s s') : Grown [] s s' :=
  ⟨h.modules, h.next, [], h.registered, rfl⟩

/-! ## Imports -/

/-- How the load of imports ends. -/
inductive Fate where
  | loaded
  | fails
  /-- the load of a module fails after it was read -/
  | leaks
  deriving DecidableEq

def Imports.fate (pg : Postgres) (type : PackageType) : Imports → Fate
  | .done loads => if loads then .loaded else .fails
  | .known rest => rest.fate pg type
  | .depend name input imports rest =>
    if ¬ input.reads pg name then .fails
    else if input.type = some type ∧ imports.fate pg type = .loaded ∧ input.registers then
      rest.fate pg type
    else .leaks

/-- The modules whose load succeeds, the last one first. -/
def Imports.loaded (pg : Postgres) (type : PackageType) : Imports → List String
  | .done _ => []
  | .known rest => rest.loaded pg type
  | .depend name input imports rest =>
    if ¬ (input.reads pg name ∧ input.type = some type) then []
    else if imports.fate pg type = .loaded ∧ input.registers then
      rest.loaded pg type ++ name :: imports.loaded pg type
    else imports.loaded pg type

/-- The ending that belongs to it. -/
def Fate.Fits : Fate → Ending Bool → Prop
  | .loaded, .returned b => b = true
  | .fails, .returned b => b = false
  | .fails, .raised => True
  | .leaks, .raised => True
  | _, _ => False

/-- The end of a load of imports, where `X` belongs to the modules that import them: unless it
    leaks, all else that is live belongs to registered modules. -/
structure Ended (fate : Fate) (new : List String) (X : Multiset ℕ) (s : Loader pg)
    (e : Ending Bool) (s' : Loader pg) : Prop where
  whole : s'.Whole
  grown : Grown new s s'
  live : ∃ Y, s'.arena.live = Y + (X + s'.owned) ∧ (Y = 0 ↔ fate ≠ .leaks)
  ending : fate.Fits e

variable {X : Multiset ℕ}

/-- A module that was read is left behind. -/
theorem Ended.leaks {G : Multiset ℕ} (hw : s'.Whole) (hg : Grown new s s')
    (h : Has p m (G + (X + s'.owned)) s') : Ended .leaks new X s .raised s' where
  whole := hw
  grown := hg
  live := by
    refine ⟨{p} + m.owns + G, ?_, ?_⟩
    · rw [h.live]
      abel
    · simp [Multiset.singleton_add]
  ending := trivial

theorem Ended.leaks_self (hw : s'.Whole) (hg : Grown new s s') (h : Has p m (X + s'.owned) s') :
    Ended .leaks new X s .raised s' := by
  rw [← zero_add (X + s'.owned)] at h
  exact .leaks hw hg h

/-- **The completer** takes the module, and frees its tuple table. -/
theorem wp_completer (h : Has p m F s) {t : ℕ} (ht : m.loadingTuptable = some t) :
    wp (wasmModuleCompleterCallback p) (fun e s' => e = .returned () ∧
      Has p { m with module := true, loadingTuptable := none } F s' ∧ Elsewhere p s s') s := by
  let m₁ : PreparedModule pg := { m with module := true }
  let s₁ : Loader pg := { s with modules := s.modules.store p m₁ }
  have hcontent₁ : s₁.modules.get? p = some m₁ := Memory.get?_store_self
  have howns : m.owns = {t} + PreparedModule.owns { m₁ with loadingTuptable := none } := by
    simp only [PreparedModule.owns, ht, held_some, held_none, m₁]
    abel
  have hlive₁ : s₁.arena.live =
      {t} + ({p} + PreparedModule.owns { m₁ with loadingTuptable := none } + F) := by
    change s.arena.live = _
    rw [h.live, howns]
    abel
  have hreleased : Loader.modules { s₁ with arena := s₁.arena.free t } = s₁.modules := rfl
  have ht₁ : m₁.loadingTuptable = some t := ht
  rw [wasmModuleCompleterCallback, wp_bind, wp_modify h.content, andThen_returned, wp_bind,
    wp_contents hcontent₁, andThen_returned, wp_bind, ht₁, releaseSome, wp_release hlive₁,
    andThen_returned, wp_modify (hreleased ▸ hcontent₁)]
  refine ⟨rfl, ⟨Memory.get?_store_self, Arena.live_free hlive₁⟩, fun q hq => ?_, rfl, le_rfl⟩
  change ((s.modules.store p m₁).store p _).get? q = s.modules.get? q
  rw [Memory.get?_store_of_ne hq, Memory.get?_store_of_ne hq]

/-- **The reader**: the module cannot be read and nothing is left of it, or it is there. -/
theorem wp_reader {Q : Ending (Option ℕ) → Loader pg → Prop} (hF : s.arena.live = F)
    (hnone : ∀ s', ¬ input.reads pg name → s'.arena.live = F → Beyond s.arena.next s s' →
      Q (.returned none) s')
    (hsome : ∀ p m t s', input.reads pg name →
      Created s.arena.next name input.rows (some t) F s p m s' → Q (.returned (some p)) s') :
    wp (wasmModuleReaderCallback pg name input) Q s := by
  rw [wasmModuleReaderCallback, wp_pgCatch, wp_bind]
  refine wp_rstPrepareModule hF le_rfl hnone ?_
  intro p m t s₁ hreads h
  rw [finish, wp_inner, wp_modify h.has.content]
  let m' : PreparedModule pg := { m with loadingTuptable := some t }
  have hlive : s₁.arena.live = {p} + m'.owns + F := by
    rw [h.has.live, PreparedModule.owns, PreparedModule.owns, h.loadingTuptable, held_none, held_some]
    abel
  exact hsome p m' t _ hreads ⟨⟨Memory.get?_store_self, hlive⟩, h.beyond.trans (.store h.le _), h.le,
    h.lt, h.name, h.rows, h.complete, h.module, rfl⟩

theorem Fate.Fits.of_loaded {e : Ending Bool} (h : Fate.loaded.Fits e) : e = .returned true := by
  cases e with
  | returned b => exact congrArg Ending.returned h
  | raised | crashed => exact h.elim

theorem Fate.Fits.of_ne_loaded {fate : Fate} {e : Ending Bool} (h : fate.Fits e)
    (hne : fate ≠ .loaded) : e = .raised ∨ e = .returned false := by
  cases e with
  | raised => exact .inl rfl
  | returned b =>
    cases fate with
    | loaded => exact (hne rfl).elim
    | fails => exact .inr (congrArg Ending.returned h)
    | leaks => exact h.elim
  | crashed => cases fate <;> exact h.elim

theorem Fate.not_fits_crashed (fate : Fate) : ¬ fate.Fits .crashed := by
  cases fate <;> exact id

theorem Fate.Fits.ne_leaks {fate : Fate} {b : Bool} (h : fate.Fits (.returned b)) :
    fate ≠ .leaks := by
  rintro rfl
  exact h

@[simp] theorem wp_destroyed {Q : Ending α → Loader pg → Prop} :
    wp (do
      wasmModuleDestroyerCallback
      raiseError) Q s ↔ Q .raised s := Iff.rfl

/-- What the load of a module comes to that was read, where that of its own imports comes to `fate`,
    and that of the rest to `fate'`. -/
theorem wp_loadRead (type : PackageType) (input : ModuleInput) {loadIts loadRest : Code (Loader pg) Bool}
    {fate fate' : Fate} {new' : List String} {rows : List QueryAttrs} {s₁ : Loader pg} {t : ℕ}
    (hw : s.Whole) (h : Created s.arena.next name rows (some t) (X + s.owned) s p m s₁)
    (hits : ∀ {s : Loader pg} {X}, s.Whole → s.arena.live = X + s.owned →
      wp loadIts (Ended fate new X s) s)
    (hrest : ∀ {s : Loader pg} {X}, s.Whole → s.arena.live = X + s.owned →
      wp loadRest (Ended fate' new' X s) s) :
    wp (loadRead type name input p loadIts loadRest)
      (Ended (if input.type = some type ∧ fate = .loaded ∧ input.registers then fate' else .leaks)
        (if input.type ≠ some type then []
          else if fate = .loaded ∧ input.registers then new' ++ name :: new else new) X s) s₁ := by
  obtain ⟨hw₁, howned₁⟩ := hw.beyond h.beyond
  have hhas₁ : Has p m (X + s₁.owned) s₁ := by
    rw [howned₁]
    exact h.has
  rw [loadRead]
  by_cases htype : input.type = some type
  swap
  · simp only [htype, ne_eq, not_false_eq_true, if_true, false_and, if_false, wp_destroyed]
    exact .leaks_self hw₁ h.beyond.grown hhas₁
  simp only [htype, ne_eq, not_true_eq_false, if_false, true_and]
  have hlive₁ : s₁.arena.live = ({p} + m.owns + X) + s₁.owned := by
    rw [hhas₁.live]
    abel
  rw [wp_bind]
  refine wp_mono (hits hw₁ hlive₁) ?_
  rintro e s₂ ⟨hw₂, hgrown₂, ⟨Y, hY, hfate⟩, hfits⟩
  have hcontent₂ : s₂.modules.get? p = some m := by
    rw [hgrown₂.modules p h.lt]
    exact h.has.content
  have hhas₂ : Has p m (Y + (X + s₂.owned)) s₂ := by
    refine ⟨hcontent₂, ?_⟩
    rw [hY]
    abel
  have hgrown := h.beyond.grown.trans hgrown₂
  rw [List.append_nil] at hgrown
  by_cases hloaded : fate = .loaded
  swap
  · simp only [hloaded, false_and, if_false]
    rcases hfits.of_ne_loaded hloaded with rfl | rfl
    · exact .leaks hw₂ hgrown hhas₂
    · exact .leaks hw₂ hgrown hhas₂
  subst hloaded
  obtain rfl := hfits.of_loaded
  obtain rfl : Y = 0 := hfate.2 (by simp)
  rw [zero_add] at hhas₂
  simp only [andThen_returned, Bool.not_true, Bool.false_eq_true, if_false, true_and, wp_bind]
  refine wp_mono (wp_completer hhas₂ h.loadingTuptable) ?_
  rintro e s₃ ⟨rfl, hhas₃, h₃⟩
  obtain ⟨hw₃, howned₃⟩ := hw₂.elsewhere hhas₂ h₃
  rw [← howned₃] at hhas₃
  have hgrown₃ : Grown new s s₃ := by
    refine ⟨fun q hq => ?_, hgrown.next.trans h₃.next, ?_⟩
    · rw [h₃.modules q (hq.trans_le h.le).ne, hgrown.modules q hq]
    · rw [h₃.registered]
      exact hgrown.registered
  rw [andThen_returned]
  by_cases hregisters : input.registers = true
  swap
  · simp only [hregisters, Bool.not_false, if_true, if_false, Bool.false_eq_true]
    exact .leaks_self hw₃ hgrown₃ hhas₃
  simp only [hregisters, Bool.not_true, Bool.false_eq_true, if_false, if_true, wp_bind]
  have hlt : p < s₃.arena.next := h.lt.trans_le (hgrown₂.next.trans h₃.next)
  obtain ⟨hw₄, hlive₄⟩ := hw₃.register hhas₃ hlt h.name rfl rfl h.complete
  rw [register, wp_update, andThen_returned]
  refine wp_mono (hrest hw₄ hlive₄) ?_
  rintro e s₅ ⟨hw₅, hgrown₅, hlive₅, hfits₅⟩
  obtain ⟨rs, hrs, hnames⟩ := hgrown₃.registered
  have hgrown₄ : Grown (name :: new) s { s₃ with registered := (name, p) :: s₃.registered } :=
    ⟨hgrown₃.modules, hgrown₃.next, (name, p) :: rs, by rw [hrs]; rfl, by rw [← hnames]; rfl⟩
  exact ⟨hw₅, hgrown₄.trans hgrown₅, hlive₅, hfits₅⟩

/-- **A load of imports** ends as it should. -/
theorem wp_loadImports (type : PackageType) (imports : Imports) (hw : s.Whole)
    (hlive : s.arena.live = X + s.owned) :
    wp (loadImports pg type imports)
      (Ended (imports.fate pg type) (imports.loaded pg type) X s) s := by
  induction imports generalizing s X with
  | done loads =>
    rw [loadImports, wp_pure]
    refine ⟨hw, .refl s, ⟨0, ?_, ?_⟩, ?_⟩
    · rw [hlive, zero_add]
    · cases loads <;> simp [Imports.fate]
    · cases loads <;> simp [Imports.fate, Fate.Fits]
  | known rest ih => exact ih hw hlive
  | depend name input imports rest ihImports ihRest =>
    rw [loadImports, wp_bind]
    refine wp_reader hlive ?_ ?_
    · intro s₁ hreads hlive₁ hb
      obtain ⟨hw₁, howned⟩ := hw.beyond hb
      rw [Imports.fate, if_pos hreads, Imports.loaded, if_pos fun h => hreads h.1]
      refine (wp_raiseError (Q := Ended .fails [] X s)).2 ⟨hw₁, hb.grown, ⟨0, ?_, by simp⟩, trivial⟩
      rw [hlive₁, howned, zero_add]
    · intro p m t s₁ hreads h
      have hread := wp_loadRead type input hw h ihImports ihRest
      simp only [Imports.fate, Imports.loaded, hreads, not_true_eq_false, if_false, true_and]
      exact hread

/-! ## All or nothing -/

/-- A module that is imported fails after it was read, while the code of this one is loaded. -/
def Leaks (pg : Postgres) (input : ModuleInput) (imports : Imports) : Prop :=
  ∃ type, input.type = some type ∧ imports.fate pg type = .leaks

/-- Only modules whose load succeeded have been registered as imports. -/
def OnlyLoaded (pg : Postgres) (input : ModuleInput) (imports : Imports) (s s' : Loader pg) : Prop :=
  ∀ r ∈ s'.registered, r ∈ s.registered ∨
    ∃ type, input.type = some type ∧ r.1 ∈ imports.loaded pg type

/-- The load of a module is all or nothing: it does not crash, as it would if it freed what is not
    live, and all that is live after it belongs to registered modules, which are whole.  If it
    succeeds the module is registered, and made of its rows; if not, only imports whose load
    succeeded are. -/
def AllOrNothing (pg : Postgres) (name : String) (input : ModuleInput) (imports : Imports)
    (s : Loader pg) : Prop :=
  wp (prepare pg name input imports) (fun e s' => s'.Settled ∧ match e with
    | .returned p => (name, p) ∈ s'.registered ∧
        ∃ m, s'.modules.get? p = some m ∧ m.rows = input.rows
    | .raised => OnlyLoaded pg input imports s s'
    | .crashed => False) s

variable {imports : Imports} {type : PackageType}

theorem Grown.onlyLoaded (h : Grown (imports.loaded pg type) s s') (htype : input.type = some type) :
    OnlyLoaded pg input imports s s' := by
  obtain ⟨rs, hrs, hnames⟩ := h.registered
  intro r hr
  rw [hrs] at hr
  rcases List.mem_append.1 hr with hr | hr
  · exact .inr ⟨type, htype, hnames ▸ List.mem_map_of_mem hr⟩
  · exact .inl hr

/-- What `load_aot_module` comes to for the module `m` at `p` with its tuple table `t`. -/
def CodeLoaded (name : String) (input : ModuleInput) (imports : Imports) (p t : ℕ)
    (m : PreparedModule pg) (s : Loader pg) (e : Ending Unit) (s' : Loader pg) : Prop :=
  match e with
  | .returned _ => ¬ Leaks pg input imports ∧ ∃ s₂ : Loader pg, s₂.Whole ∧ p < s₂.arena.next ∧
      Has p m ({t} + s₂.owned) s₂ ∧ s' = { s₂ with registered := (name, p) :: s₂.registered }
  | .raised => s'.Whole ∧ OnlyLoaded pg input imports s s' ∧
      ∃ Y, Has p m ({t} + (Y + s'.owned)) s' ∧ (Y = 0 ↔ ¬ Leaks pg input imports)
  | .crashed => False

theorem wp_loadAotModule {rows : List QueryAttrs} {s₁ : Loader pg} {t : ℕ} (hw : s.Whole)
    (h : Created s.arena.next name rows none ({t} + s.owned) s p m s₁) :
    wp (loadAotModule pg name input imports p) (CodeLoaded name input imports p t m s) s₁ := by
  obtain ⟨hw₁, howned₁⟩ := hw.beyond h.beyond
  have hhas₁ : Has p m ({t} + s₁.owned) s₁ := by
    rw [howned₁]
    exact h.has
  rw [loadAotModule]
  cases htype : input.type with
  | none =>
    refine ⟨hw₁, fun r hr => .inl ?_, 0, by rwa [zero_add], ?_⟩
    · rwa [← h.beyond.registered]
    · simp [Leaks, htype]
  | some type =>
  have hlive₁ : s₁.arena.live = ({p} + m.owns + {t}) + s₁.owned := by
    rw [hhas₁.live]
    abel
  have hleaks : Leaks pg input imports ↔ imports.fate pg type = .leaks := by
    simp [Leaks, htype]
  dsimp only
  rw [wp_bind]
  refine wp_mono (wp_loadImports type imports hw₁ hlive₁) ?_
  rintro e s₂ ⟨hw₂, hgrown₂, ⟨Y, hY, hfate⟩, hfits⟩
  have hcontent₂ : s₂.modules.get? p = some m := by
    rw [hgrown₂.modules p h.lt]
    exact h.has.content
  have hhas₂ : Has p m ({t} + (Y + s₂.owned)) s₂ := by
    refine ⟨hcontent₂, ?_⟩
    rw [hY]
    abel
  have hgrown := h.beyond.grown.trans hgrown₂
  rw [List.append_nil] at hgrown
  have hfail : CodeLoaded name input imports p t m s .raised s₂ :=
    ⟨hw₂, hgrown.onlyLoaded htype, Y, hhas₂, by rw [hfate, hleaks]⟩
  cases e with
  | crashed => exact (imports.fate pg type).not_fits_crashed hfits
  | raised => exact hfail
  | returned loads =>
  rw [andThen_returned, wp_bind, wp_call]
  refine ⟨fun _ => hfail, fun hloads => ?_⟩
  obtain rfl : loads = true := by simpa using hloads
  have hnot : imports.fate pg type ≠ .leaks := hfits.ne_leaks
  obtain rfl : Y = 0 := hfate.2 hnot
  rw [zero_add] at hhas₂
  rw [andThen_returned, id_eq, wp_bind, wp_call]
  refine ⟨fun _ => hfail, fun _ => ?_⟩
  rw [andThen_returned, id_eq, wp_bind, wp_call]
  refine ⟨fun _ => hfail, fun _ => ?_⟩
  rw [andThen_returned, id_eq, wp_bind, wp_call]
  refine ⟨fun _ => hfail, fun _ => ?_⟩
  exact ⟨by rwa [hleaks], s₂, hw₂, h.lt.trans_le hgrown₂.next, hhas₂, rfl⟩

/-- What the load of a module comes to: it leaks what is live beyond the registered modules. -/
def Prepared (name : String) (input : ModuleInput) (imports : Imports) (s : Loader pg)
    (e : Ending ℕ) (s' : Loader pg) : Prop :=
  s'.Whole ∧ (∃ Y, s'.arena.live = Y + s'.owned ∧
      (Y = 0 ↔ ¬ (input.reads pg name ∧ Leaks pg input imports))) ∧
    match e with
    | .returned p => (name, p) ∈ s'.registered ∧
        ∃ m, s'.modules.get? p = some m ∧ m.rows = input.rows
    | .raised => OnlyLoaded pg input imports s s'
    | .crashed => False

theorem wp_prepare (hs : s.Settled) :
    wp (prepare pg name input imports) (Prepared name input imports s) s := by
  rw [prepare]
  refine wp_rstPrepareModule hs.live le_rfl ?_ ?_
  · intro s' hreads hlive hb
    obtain ⟨hw', howned⟩ := hs.whole.beyond hb
    refine ⟨hw', ⟨0, ?_, ?_⟩, fun r hr => .inl ?_⟩
    · rw [hlive, howned, zero_add]
    · simp [hreads]
    · rwa [← hb.registered]
  intro p m t s₁ hreads h
  rw [finish, wp_bind, wp_inner]
  refine wp_mono (wp_loadAotModule hs.whole h) ?_
  intro e s₂ he
  cases e with
  | crashed => exact he.elim
  | raised =>
    obtain ⟨hw₂, honly, Y, hhas₂, hY⟩ := he
    rw [andThen_raised]
    refine wp_mono (wp_cleanUp (o := some t) hhas₂ h.module) ?_
    rintro e ⟨s₃, l⟩ ⟨rfl, hlive₃, h₃⟩
    rw [← add_assoc] at hhas₂
    obtain ⟨hw₃, howned₃⟩ := hw₂.elsewhere hhas₂ h₃
    refine ⟨hw₃, ⟨Y, ?_, ?_⟩, fun r hr => honly r ?_⟩
    · rw [hlive₃, howned₃]
    · simp [hreads, hY]
    · rwa [← h₃.registered]
  | returned a =>
    obtain ⟨hnot, s₃, hw₃, hlt, hhas₃, rfl⟩ := he
    -- the module gets its code, and its tuple table is freed
    let m' : PreparedModule pg := { m with module := true }
    let s₄ : Loader pg := { s₃ with modules := s₃.modules.store p m', arena := s₃.arena.free t }
    have hlive₃ : s₃.arena.live = {t} + ({p} + m'.owns + s₃.owned) := by
      rw [hhas₃.live]
      change {p} + m'.owns + ({t} + s₃.owned) = _
      abel
    have h₄ : Elsewhere p s₃ s₄ := ⟨fun q hq => Memory.get?_store_of_ne hq, rfl, le_rfl⟩
    obtain ⟨hw₄, howned₄⟩ := hw₃.elsewhere hhas₃ h₄
    have hhas₄ : Has p m' (0 + s₄.owned) s₄ := by
      refine ⟨Memory.get?_store_self, ?_⟩
      rw [zero_add, howned₄]
      exact Arena.live_free hlive₃
    obtain ⟨hw₅, hlive₅⟩ := hw₄.register hhas₄ hlt h.name rfl h.loadingTuptable h.complete
    have hcontent : Loader.modules { s₃ with registered := (name, p) :: s₃.registered } =
        s₃.modules := rfl
    rw [andThen_returned, wp_bind, wp_inner, wp_modify (hcontent ▸ hhas₃.content), andThen_returned,
      wp_bind, wp_inner]
    refine Iff.mpr (wp_release hlive₃) ?_
    exact ⟨hw₅, ⟨0, hlive₅, by simp [hnot]⟩, List.mem_cons_self, m', Memory.get?_store_self, h.rows⟩

/-- **The load of a module is all or nothing** exactly if no module that it imports fails after it
    was read. -/
theorem allOrNothing_iff (hs : s.Settled) : AllOrNothing pg name input imports s ↔
    ¬ (input.reads pg name ∧ Leaks pg input imports) := by
  refine wp_iff (wp_prepare hs) ?_
  rintro e s' ⟨hw, ⟨Y, hlive, hY⟩, he⟩
  rw [← hY]
  constructor
  · rintro ⟨hs', -⟩
    rw [hs'.live] at hlive
    exact right_eq_add.1 hlive
  · rintro rfl
    exact ⟨⟨hw, by rw [hlive, zero_add]⟩, he⟩

/-! ### One import -/

/-- A catalog in which every statement is prepared, and none has columns. -/
def plainPostgres : Postgres where
  RawStmt := Unit
  Plan := Unit
  rawParser _ := some [()]
  analyze _ _ _ := none
  choosePortalStrategy _ := .multiQuery
  spiPrepare _ _ := some ()
  spiKeepplan _ := true
  resultDesc _ := none

/-- The row of a statement with one argument, an `int4`. -/
def oneArgument : QueryAttrs
  | 1 => some (.int4 0)
  | 2 => some (.text [66, 69, 71, 73, 78])
  | 4 => some (.int4s [23])
  | 6 => some (.int4s [1])
  | 10 => some (.int4s [])
  | _ => none

def oneQueryInput : ModuleInput := { rows := [oneArgument], heapTypes := some [0] }

theorem empty_settled : Loader.Settled ({} : Loader pg) :=
  ⟨fun _ h => absurd h List.not_mem_nil, rfl⟩

/-- The module and its import are both there. -/
theorem import_loaded : Loader.Settled ({} : Loader plainPostgres) ∧
    AllOrNothing plainPostgres "app" oneQueryInput
      (.depend "lib" oneQueryInput (.done true) (.done true)) {} := by
  refine ⟨empty_settled, (allOrNothing_iff empty_settled).2 ?_⟩
  rintro ⟨-, type, htype, hleaks⟩
  obtain rfl : PackageType.aot = type := Option.some_inj.1 htype
  revert hleaks
  decide

/-- The code of the import is bad: what was read of it, its plan and the block of its converters are
    left. -/
theorem import_left_behind : ¬ AllOrNothing plainPostgres "app" oneQueryInput
    (.depend "lib" oneQueryInput (.done false) (.done true)) {} := by
  rintro ⟨⟨-, hlive⟩, -⟩
  revert hlive
  decide

end Rustica.Loading
