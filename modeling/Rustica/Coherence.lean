/-
  The database and the modules that the workers have cached.

  A module is a row of `rustica.modules` and its rows of `rustica.queries`.  When a transaction commits,
  the trigger on `rustica.modules` has notified all workers of the rows that it has inserted, updated or
  deleted; a worker reads the notifications some time later, between two requests.  Until then it may
  serve what it has cached.

  As long as every change of a module is notified under its name, what a worker has cached is what is
  stored, unless a notification that it has not read yet says otherwise (`coherent_iff`); so a request
  is served with an application that was stored at some time since the worker had last read them all
  (`served_recent`).  The trigger does not see to that alone: it does not fire for the queries, nor for
  the name that a module had before it was renamed, nor for `TRUNCATE` (`announced_of_deploy`).

  Of PostgreSQL this takes that commits are in an order, that a transaction's notifications are queued
  with its commit, and that a request reads from one snapshot.
-/
import Mathlib.Data.List.AList
import Rustica.Invalidation

namespace Rustica.Coherence

open Exec Invalidation

variable {Code Query : Type}

/-! ## The database -/

/-- The tables `rustica.modules` and `rustica.queries`, with their keys: the name, and the module and the
    index. -/
structure Database (Code Query : Type) where
  modules : AList fun _ : String => Code
  queries : AList fun _ : String × Int32 => Query
  /-- `FOREIGN KEY (module) REFERENCES rustica.modules(name)` -/
  references : ∀ key ∈ queries, key.1 ∈ modules

/-- What is stored of one module. -/
@[ext]
structure Stored (Code Query : Type) where
  code : Option Code
  queries : Int32 → Option Query

/-- The rows that `rst_prepare_module` selects. -/
def Database.stored (db : Database Code Query) (name : String) : Stored Code Query :=
  ⟨db.modules.lookup name, fun index => db.queries.lookup (name, index)⟩

/-- What a statement does to one row, or to all of a table. -/
inductive Statement (Code Query : Type) where
  | insertModule (name : String) (code : Code)
  | updateModule (old name : String) (code : Code)
  | deleteModule (name : String)
  /-- `TRUNCATE rustica.modules CASCADE` -/
  | truncateModules
  | insertQuery (key : String × Int32) (query : Query)
  | updateQuery (old key : String × Int32) (query : Query)
  | deleteQuery (key : String × Int32)
  | truncateQueries

/-- `pg_notify` raises an error for a payload that is not shorter. -/
def notifyPayloadMaxLength : ℕ := 8000

/-- The trigger `module_change`, for each row: `rustica.invalidate_module_cache` notifies of the new
    name, or the old one of a row that is deleted. -/
def invalidateModuleCache : Statement Code Query → Option String
  | .insertModule name _ => some name
  | .updateModule _ name _ => some name
  | .deleteModule name => some name
  | _ => none

namespace Database

variable (db : Database Code Query)

def empty : Database Code Query := ⟨∅, ∅, fun _ h => absurd h (AList.notMem_empty _)⟩

/-- No row of `rustica.queries` references the module. -/
def Unreferenced (name : String) : Prop := ∀ key ∈ db.queries.keys, key.1 ≠ name

instance (name : String) : Decidable (db.Unreferenced name) :=
  inferInstanceAs (Decidable (∀ key ∈ db.queries.keys, key.1 ≠ name))

variable {db}

theorem Unreferenced.ne {name : String} (h : db.Unreferenced name) {key : String × Int32}
    (hkey : key ∈ db.queries) : key.1 ≠ name := h key (AList.mem_keys.1 hkey)

variable (db)

/-- The row `old` of `rustica.modules` becomes this one. -/
def putModule (old name : String) (code : Code) (h : old = name ∨ db.Unreferenced old) :
    Database Code Query where
  modules := (db.modules.erase old).insert name code
  queries := db.queries
  references key hkey := by
    rw [AList.mem_insert, AList.mem_erase]
    by_cases hname : key.1 = name
    · exact .inl hname
    · refine .inr ⟨?_, db.references key hkey⟩
      rcases h with rfl | h
      · exact hname
      · exact h.ne hkey

/-- The row `old` of `rustica.queries` becomes this one. -/
def putQuery (old key : String × Int32) (query : Query) (h : key.1 ∈ db.modules) :
    Database Code Query where
  modules := db.modules
  queries := (db.queries.erase old).insert key query
  references key' hkey' := by
    rw [AList.mem_insert, AList.mem_erase] at hkey'
    rcases hkey' with rfl | ⟨-, hkey'⟩
    · exact h
    · exact db.references key' hkey'

def dropModule (name : String) (h : db.Unreferenced name) : Database Code Query where
  modules := db.modules.erase name
  queries := db.queries
  references key hkey := AList.mem_erase.2 ⟨h.ne hkey, db.references key hkey⟩

def dropQuery (key : String × Int32) : Database Code Query where
  modules := db.modules
  queries := db.queries.erase key
  references key' hkey' := db.references key' (AList.mem_erase.1 hkey').2

/-- A statement, unless it raises an error: a key is double, a reference would be missing, the name is
    too long to be notified, or there is no such row. -/
def exec : Statement Code Query → Option (Database Code Query)
  | .insertModule name code =>
    if name ∉ db.modules ∧ name.utf8ByteSize < notifyPayloadMaxLength then
      some (db.putModule name name code (.inl rfl))
    else none
  | .updateModule old name code =>
    if h : old = name ∨ db.Unreferenced old then
      if old ∈ db.modules ∧ (old = name ∨ name ∉ db.modules) ∧
          name.utf8ByteSize < notifyPayloadMaxLength then
        some (db.putModule old name code h)
      else none
    else none
  | .deleteModule name =>
    if h : db.Unreferenced name then
      if name ∈ db.modules then some (db.dropModule name h) else none
    else none
  | .truncateModules => some empty
  | .insertQuery key query =>
    if h : key.1 ∈ db.modules then
      if key ∉ db.queries then some (db.putQuery key key query h) else none
    else none
  | .updateQuery old key query =>
    if h : key.1 ∈ db.modules then
      if old ∈ db.queries ∧ (old = key ∨ key ∉ db.queries) then some (db.putQuery old key query h)
      else none
    else none
  | .deleteQuery key => if key ∈ db.queries then some (db.dropQuery key) else none
  | .truncateQueries => some ⟨db.modules, ∅, fun _ h => absurd h (AList.notMem_empty _)⟩

/-- The statements of a transaction, with the names that it is going to notify: a transaction notifies
    of a name once. -/
def transact : Database Code Query → List String → List (Statement Code Query) →
    Option (Database Code Query × List String)
  | db, names, [] => some (db, names)
  | db, names, st :: sts =>
    (db.exec st).bind fun db' => transact db'
      (match invalidateModuleCache st with
        | some name => if name ∈ names then names else names ++ [name]
        | none => names) sts

end Database

/-! ## Workers -/

/-- A worker, as a listening backend.  `origin` is a record of what each module was loaded from, which
    the code does not keep. -/
structure Backend (Code Query : Type) where
  loop : Loop := {}
  /-- the notifications in the queue before this one have been signalled to it -/
  pos : ℕ
  /-- the snapshot of the request -/
  snapshot : Option (Database Code Query) := none
  origin : ℕ → Stored Code Query := fun _ => ⟨none, fun _ => none⟩

/-- There is a row of this name. -/
def Database.hasRow (db : Database Code Query) (name : String) : Bool := (db.modules.lookup name).isSome

/-- One step of a worker.  A request has its snapshot before it looks for a module, and loads what the
    snapshot has. -/
def Backend.step (w : Backend Code Query) (e : LoopEvent) : Option (Backend Code Query) :=
  match e with
  | .signal _ => none
  | .lookup row =>
    match w.snapshot with
    | some db =>
      if row = db.hasRow "main" then (w.loop.step e).map fun loop => { w with loop := loop } else none
    | none => none
  | .imports name row =>
    match w.snapshot with
    | some db =>
      if row = db.hasRow name then (w.loop.step e).map fun loop => { w with loop := loop } else none
    | none => none
  | .loaded =>
    match w.snapshot, w.loop.cache.loading with
    | some db, m :: _ => (w.loop.step e).map fun loop =>
      { w with loop := loop, origin := Function.update w.origin w.loop.cache.next (db.stored m.name) }
    | _, _ => none
  | e => (w.loop.step e).map fun loop => { w with loop := loop, snapshot := none }

/-! ## The system -/

structure System (Code Query : Type) where
  db : Database Code Query
  /-- all notifications, in the order of the commits -/
  queue : List Notification := []
  workers : ℕ → Option (Backend Code Query) := fun _ => none

inductive Event (Code Query : Type) where
  /-- a transaction commits, of a request or of another session -/
  | commit (tx : List (Statement Code Query))
  /-- some session notifies -/
  | notify (n : Notification)
  /-- a worker starts, and listens -/
  | start (i : ℕ)
  /-- the next notification is signalled to a worker -/
  | signal (i : ℕ)
  /-- a worker's request takes its snapshot -/
  | snapshot (i : ℕ)
  | step (i : ℕ) (e : LoopEvent)

def invalidation (name : String) : Notification := ⟨"rustica_module_cache_invalidation", name⟩

namespace System

variable (s : System Code Query)

def setWorker (i : ℕ) (w : Backend Code Query) : System Code Query :=
  { s with workers := Function.update s.workers i (some w) }

def step : Event Code Query → Option (System Code Query)
  | .commit tx => (s.db.transact [] tx).map fun r =>
    { s with db := r.1, queue := s.queue ++ r.2.map invalidation }
  | .notify n => some { s with queue := s.queue ++ [n] }
  | .start i =>
    match s.workers i with
    | none => some (s.setWorker i { pos := s.queue.length })
    | some w =>
      match w.loop.pc with
      | .gone => some (s.setWorker i { pos := s.queue.length })
      | _ => none
  | .signal i =>
    (s.workers i).bind fun w => s.queue[w.pos]?.bind fun n => (w.loop.step (.signal n)).map fun loop =>
      s.setWorker i { w with loop := loop, pos := w.pos + 1 }
  | .snapshot i =>
    (s.workers i).bind fun w =>
      match w.loop.pc, w.snapshot with
      | .taken _, none => some (s.setWorker i { w with snapshot := some s.db })
      | _, _ => none
  | .step i e => (s.workers i).bind fun w => (w.step e).map fun w' => s.setWorker i w'

end System

/-- The module that is being loaded imports the application. -/
def Event.importsMain : Event Code Query → Bool
  | .step _ (.imports name _) => name = "main"
  | _ => false

/-- An event, where no module imports the application. -/
def System.next (s : System Code Query) (e : Event Code Query) : Option (System Code Query) :=
  if e.importsMain then none else s.step e

def Step (s : System Code Query) (e : Event Code Query) (s' : System Code Query) : Prop :=
  s.next e = some s'

theorem Step.imports {s s' : System Code Query} {e : Event Code Query} (h : Step s e s') :
    s.step e = some s' ∧ e.importsMain = false := by
  rw [Step, System.next] at h
  split_ifs at h with hmain
  exact ⟨h, Bool.not_eq_true _ ▸ hmain⟩

/-! ## Transactions -/

variable {db db' : Database Code Query} {name : String} {names names' : List String}
  {st : Statement Code Query} {tx : List (Statement Code Query)}

/-- The statement may change what is stored of the module. -/
def Statement.Touches : Statement Code Query → String → Prop
  | .insertModule name _, n => n = name
  | .updateModule old name _, n => n = old ∨ n = name
  | .deleteModule name, n => n = name
  | .truncateModules, _ => True
  | .insertQuery key _, n => n = key.1
  | .updateQuery old key _, n => n = old.1 ∨ n = key.1
  | .deleteQuery key, n => n = key.1
  | .truncateQueries, _ => True

theorem stored_putModule {old new : String} {code : Code} {h : old = new ∨ db.Unreferenced old}
    (hold : name ≠ old) (hnew : name ≠ new) :
    (db.putModule old new code h).stored name = db.stored name := by
  rw [Database.stored, Database.stored, Database.putModule, AList.lookup_insert_ne hnew,
    AList.lookup_erase_ne hold]

theorem stored_putQuery {old key : String × Int32} {query : Query} {h : key.1 ∈ db.modules}
    (hold : name ≠ old.1) (hnew : name ≠ key.1) :
    (db.putQuery old key query h).stored name = db.stored name := by
  ext index : 2
  · rfl
  · have hk : (name, index) ≠ key := fun heq => hnew (congrArg Prod.fst heq)
    have ho : (name, index) ≠ old := fun heq => hold (congrArg Prod.fst heq)
    rw [Database.stored, Database.stored, Database.putQuery]
    dsimp only
    rw [AList.lookup_insert_ne hk, AList.lookup_erase_ne ho]

/-- A statement leaves the modules alone that it does not touch. -/
theorem stored_exec (h : db.exec st = some db') (hst : ¬ st.Touches name) :
    db'.stored name = db.stored name := by
  cases st with
  | insertModule new code =>
    rw [Database.exec] at h
    split_ifs at h
    cases h
    exact stored_putModule hst hst
  | updateModule old new code =>
    obtain ⟨hold, hnew⟩ := not_or.1 hst
    rw [Database.exec] at h
    split_ifs at h
    cases h
    exact stored_putModule hold hnew
  | deleteModule old =>
    rw [Database.exec] at h
    split_ifs at h
    cases h
    rw [Database.stored, Database.stored, Database.dropModule, AList.lookup_erase_ne hst]
  | insertQuery key query =>
    rw [Database.exec] at h
    split_ifs at h
    cases h
    exact stored_putQuery hst hst
  | updateQuery old key query =>
    obtain ⟨hold, hnew⟩ := not_or.1 hst
    rw [Database.exec] at h
    split_ifs at h
    cases h
    exact stored_putQuery hold hnew
  | deleteQuery key =>
    rw [Database.exec] at h
    split_ifs at h
    cases h
    ext index : 2
    · rfl
    · have hk : (name, index) ≠ key := fun heq => hst (congrArg Prod.fst heq)
      rw [Database.stored, Database.stored, Database.dropQuery]
      exact AList.lookup_erase_ne hk
  | truncateModules => exact absurd trivial hst
  | truncateQueries => exact absurd trivial hst

/-- A transaction leaves the modules alone that none of its statements touches. -/
theorem stored_transact (h : db.transact names tx = some (db', names'))
    (htx : ∀ st ∈ tx, ¬ st.Touches name) : db'.stored name = db.stored name := by
  induction tx generalizing db names with
  | nil =>
    cases h
    rfl
  | cons st tx ih =>
    obtain ⟨hst, htx⟩ := List.forall_mem_cons.1 htx
    obtain ⟨db₁, hexec, hrest⟩ := Option.bind_eq_some_iff.1 h
    rw [ih hrest htx, stored_exec hexec hst]

/-- It notifies of what the trigger tells it to. -/
theorem names_transact (h : db.transact names tx = some (db', names')) :
    name ∈ names' ↔ name ∈ names ∨ ∃ st ∈ tx, invalidateModuleCache st = some name := by
  induction tx generalizing db names with
  | nil =>
    cases h
    simp
  | cons st tx ih =>
    obtain ⟨db₁, -, hrest⟩ := Option.bind_eq_some_iff.1 h
    rw [ih hrest, List.exists_mem_cons_iff, ← or_assoc]
    refine or_congr_left ?_
    cases hst : invalidateModuleCache st with
    | none => simp
    | some new =>
      rw [Option.some_inj]
      dsimp only
      split_ifs with hmem
      · exact ⟨.inl, fun h => h.elim id fun heq => heq ▸ hmem⟩
      · rw [List.mem_append, List.mem_singleton, eq_comm]

/-- Each module that the transaction changes is notified of. -/
def Database.Announces (db : Database Code Query) (tx : List (Statement Code Query)) : Prop :=
  ∀ db' names, db.transact [] tx = some (db', names) →
    ∀ name, db'.stored name ≠ db.stored name → name ∈ names

/-- **A deployment is announced**, if it writes the row of each module that it touches. -/
theorem announced_of_deploy (htx : ∀ st ∈ tx, ∀ name, st.Touches name →
    ∃ st' ∈ tx, invalidateModuleCache st' = some name) : db.Announces tx := by
  intro db' names h name hne
  rw [names_transact h]
  by_contra hno
  refine hne (stored_transact h fun st hst htouch => hno (.inr ?_))
  exact htx st hst name htouch

/-- Another query without the module's row is not. -/
theorem not_announced_of_updateQuery {key : String × Int32} {query query' : Query}
    (h : db.queries.lookup key = some query) (hne : query' ≠ query) :
    ¬ db.Announces [.updateQuery key key query'] := by
  have hkey : key ∈ db.queries := AList.lookup_isSome.1 (Option.isSome_of_eq_some h)
  have hexec : db.exec (.updateQuery key key query') =
      some (db.putQuery key key query' (db.references key hkey)) := by
    rw [Database.exec, dif_pos (db.references key hkey), if_pos ⟨hkey, .inl rfl⟩]
  have htx : db.transact [] [.updateQuery key key query'] =
      some (db.putQuery key key query' (db.references key hkey), []) := by
    rw [Database.transact, hexec]
    rfl
  intro hann
  refine absurd (hann _ _ htx key.1 fun heq => ?_) List.not_mem_nil
  have hq := congrFun (congrArg Stored.queries heq) key.2
  rw [Database.stored, Database.stored, Database.putQuery] at hq
  dsimp only at hq
  rw [AList.lookup_insert, h] at hq
  exact hne (Option.some.inj hq)

/-! ## What a worker holds -/

/-- What holds of a worker's modules between two steps. -/
structure Sane (w : Loop) : Prop where
  single : Single w.cache
  preparing : ∀ evs, w.pc = .preparing evs → w.cache.loading ≠ []
  fresh : ∀ p ∈ w.cache.registered, p.2 < w.cache.next
  running : ∀ m evs, w.pc = .running m evs → ("main", m) ∈ w.cache.registered

/-- The modules after a step were there before, or are the one that has been loaded; those that are
    left are named by a notification if they were before. -/
structure Effect (w : Loop) (e : LoopEvent) (w' : Loop) : Prop where
  registered : ∀ p ∈ w'.cache.registered, p ∈ w.cache.registered ∨
    e = .loaded ∧ ∃ m rest, w.cache.loading = m :: rest ∧ p = (m.name, w.cache.next)
  named : ∀ p ∈ w'.cache.registered, p.1 ∈ changed w.pending → p.1 ∈ changed w'.pending
  pending : e ≠ .check → ∀ n ∈ w.pending, n ∈ w'.pending

variable {w w' : Loop} {e : LoopEvent}

/-- A step that goes on with the same modules. -/
theorem Sane.move (hw : Sane w) {pc : Invalidation.Pc} {state : ℕ} {told stale : List ℕ}
    {ms : List AOTModule} (hs : Single { w.cache with loading := ms })
    (hprep : ∀ evs, pc = .preparing evs → ms ≠ [])
    (hrun : ∀ m evs, pc = .running m evs → ("main", m) ∈ w.cache.registered) :
    Sane { w with pc := pc, state := state, told := told, stale := stale,
                  cache := { w.cache with loading := ms } } ∧
      Effect w e { w with pc := pc, state := state, told := told, stale := stale,
                          cache := { w.cache with loading := ms } } :=
  ⟨⟨hs, hprep, hw.fresh, hrun⟩, ⟨fun _ hp => .inl hp, fun _ _ h => h, fun _ _ h => h⟩⟩

/-- The name of the module that is loaded for a request. -/
theorem lookup_name {c : ModuleCache} {m : ℕ} (h : c.rstLookupModule name = some m) :
    (name, m) ∈ c.registered := by
  obtain ⟨p, hp, rfl⟩ := Option.map_eq_some_iff.1 h
  have hname : p.1 = name := by simpa using List.find?_some hp
  exact hname ▸ List.mem_of_find?_eq_some hp

/-- An event of a wait leaves the modules alone. -/
theorem Sane.onEvent (hw : Sane w) (env : EventEnv) (ev : Events) (evs : List Events) :
    Sane (w.onEvent env ev evs) ∧ Effect w e (w.onEvent env ev evs) := by
  rw [Loop.onEvent]
  by_cases h1 : (ev.latchSet && env.shutdownRequested) = true
  · rw [if_pos h1]
    exact hw.move hw.single (fun _ h => by cases h) (fun _ _ h => by cases h)
  rw [if_neg h1]
  by_cases h2 : ev.closed = true
  · rw [if_pos h2]
    exact hw.move hw.single (fun _ h => by cases h) (fun _ _ h => by cases h)
  rw [if_neg h2]
  dsimp only
  generalize (if w.state = waitWrite ∧ ev.writeable ∧ env.written then waitRead else w.state) = st
  by_cases h3 : st = waitRead ∧ ev.readable
  · rw [if_pos h3]
    by_cases h4 : env.recvFails = true
    · rw [if_pos h4]
      exact hw.move hw.single (fun _ h => by cases h) (fun _ _ h => by cases h)
    · rw [if_neg h4]
      exact hw.move hw.single (fun _ h => by cases h) (fun _ _ h => by cases h)
  · rw [if_neg h3]
    exact hw.move hw.single (fun _ h => by cases h) (fun _ _ h => by cases h)

/-- **The end of a round**: no module is left that a notification names. -/
theorem Sane.handled (hw : Sane w) :
    Sane { w.onNotificationReceived with pc := .waiting } ∧
      Effect w .check { w.onNotificationReceived with pc := .waiting } := by
  obtain ⟨hs, hsub, hnext, hmem⟩ := putmessages hw.single w.pending
  refine ⟨⟨hs, (fun _ h => by cases h), fun p hp => ?_, (fun _ _ h => by cases h)⟩,
    ⟨fun p hp => ?_, ?_, ?_⟩⟩
  · exact hnext.symm ▸ hw.fresh p (hsub.mem hp)
  · exact .inl (hsub.mem hp)
  · exact fun p hp hch => absurd hch (hmem p hp)
  · exact fun hno => absurd rfl hno

/-- **A load is complete.** -/
theorem Sane.loaded (hw : Sane w) {evs : List Events} {m : AOTModule} {rest : List AOTModule}
    (hl : w.cache.loading = m :: rest) :
    Sane { w with cache := w.cache.complete m rest
                  pc := if rest = [] then .running w.cache.next evs else .preparing evs } ∧
      Effect w .loaded { w with
        cache := w.cache.complete m rest
        pc := if rest = [] then .running w.cache.next evs else .preparing evs } := by
  refine ⟨⟨hw.single.complete hl, fun evs' hpc => ?_, fun p hp => ?_, fun m' evs' hpc => ?_⟩,
    ⟨fun p hp => ?_, fun _ _ h => h, fun _ _ h => h⟩⟩
  · dsimp only at hpc
    split_ifs at hpc with hrest
    obtain ⟨m', rest', rfl⟩ := List.exists_cons_of_ne_nil hrest
    exact List.cons_ne_nil _ _
  · rcases List.mem_cons.1 hp with rfl | hp
    · exact Nat.lt_succ_self _
    · exact Nat.lt_succ_of_lt (hw.fresh p hp)
  · dsimp only at hpc
    split_ifs at hpc with hrest
    cases hpc
    -- the outermost load is that of the application
    have hname : m.name = "main" := hw.single.last m.name (by rw [hl, hrest]; rfl)
    exact hname ▸ List.mem_cons_self
  · rcases List.mem_cons.1 hp with rfl | hp
    · exact .inr ⟨rfl, m, rest, hl, rfl⟩
    · exact .inl hp

/-- **One step of a worker.** -/
theorem sane_step (hw : Sane w) (hmain : ∀ name row, e = .imports name row → name ≠ "main")
    (h : w.step e = some w') : Sane w' ∧ Effect w e w' := by
  cases e with
  | signal n =>
    cases h
    refine ⟨⟨hw.single, hw.preparing, hw.fresh, hw.running⟩,
      ⟨fun _ hp => .inl hp, fun p _ hch => ?_, ?_⟩⟩
    · rw [changed_append]
      exact List.mem_append_left _ hch
    · exact fun _ n hn => List.mem_append_left _ hn
  | wait evs =>
    rw [Loop.step] at h
    split at h
    · split_ifs at h
      · cases h
        exact hw.move hw.single (fun _ h => by cases h) (fun _ _ h => by cases h)
      · cases h
        exact hw.move hw.single (fun _ h => by cases h) (fun _ _ h => by cases h)
    · cases h
  | event env =>
    rw [Loop.step] at h
    split at h
    · cases h
      exact hw.onEvent _ _ _
    · cases h
  | check =>
    rw [Loop.step] at h
    split at h
    · split_ifs at h
      · cases h
        exact hw.handled
      · cases h
        exact hw.move hw.single (fun _ h => by cases h) (fun _ _ h => by cases h)
    · cases h
  | lookup row =>
    rw [Loop.step] at h
    split at h
    · split at h
      · next m hm =>
        cases h
        refine hw.move hw.single (fun _ h => by cases h) fun m' evs' h => ?_
        cases h
        exact lookup_name hm
      · next hm =>
        split at h
        · cases h
          exact hw.move (hw.single.begin hm) (fun _ _ => List.cons_ne_nil _ _) (fun _ _ h => by cases h)
        · cases h
          exact hw.move hw.single (fun _ h => by cases h) (fun _ _ h => by cases h)
    · cases h
  | imports name row =>
    rw [Loop.step] at h
    split at h
    · next evs hpc =>
      have hs : Single (w.cache.resolve name row) :=
        hw.single.resolve (hw.preparing evs hpc) (hmain name row rfl)
      rw [resolve_eq] at h hs
      dsimp only at h
      split_ifs at h with hl
      · cases h
        exact hw.move hs (fun _ h => by cases h) (fun _ _ h => by cases h)
      · cases h
        exact hw.move hs (fun _ _ => hl) (fun _ _ h => by cases h)
    · cases h
  | loaded =>
    rw [Loop.step] at h
    split at h
    · next evs m rest hpc hl =>
      cases h
      exact hw.loaded hl
    · cases h
  | done =>
    rw [Loop.step] at h
    split at h
    · cases h
      exact hw.move hw.single (fun _ h => by cases h) (fun _ _ h => by cases h)
    · cases h
  | fails =>
    have hgone : Sane { w with pc := .gone } ∧ Effect w .fails { w with pc := .gone } :=
      hw.move hw.single (fun _ h => by cases h) (fun _ _ h => by cases h)
    rw [Loop.step] at h
    split at h
    · cases h
      exact hgone
    · cases h
      exact hgone
    · cases h
      exact hgone
    · cases h

variable {b b' : Backend Code Query} {c : Stored Code Query} {queue : List Notification}

/-- What a worker has of a module: one that is cached, or what its request may load. -/
inductive Backend.Holds (b : Backend Code Query) : String → Stored Code Query → Prop
  | cached {p : String × ℕ} (h : p ∈ b.loop.cache.registered) : b.Holds p.1 (b.origin p.2)
  | seen {db : Database Code Query} (h : b.snapshot = some db) (name : String) :
      b.Holds name (db.stored name)

/-- The notifications that the worker has still to read. -/
def Backend.unread (b : Backend Code Query) (queue : List Notification) : List Notification :=
  b.loop.pending ++ queue.drop b.pos

theorem changed_mono {ns ms : List Notification} (h : ∀ n ∈ ns, n ∈ ms)
    (hch : name ∈ changed ns) : name ∈ changed ms := by
  obtain ⟨n, hn, hchannel, hpayload⟩ := mem_changed.1 hch
  exact mem_changed.2 ⟨n, h n hn, hchannel, hpayload⟩

/-- A step that loads no module, and may end the request. -/
theorem Backend.holds_move {loop : Loop} {snapshot : Option (Database Code Query)}
    (hE : Effect b.loop e loop) (he : e ≠ .loaded)
    (hsnapshot : ∀ db, snapshot = some db → b.snapshot = some db ∧ e ≠ .check)
    (h : Backend.Holds { b with loop := loop, snapshot := snapshot } name c) :
    b.Holds name c ∧ (name ∈ changed b.loop.pending → name ∈ changed loop.pending) := by
  cases h with
  | @cached p hp =>
    exact ⟨.cached ((hE.registered p hp).resolve_right fun h => he h.1), hE.named p hp⟩
  | seen hdb name =>
    obtain ⟨hold, hcheck⟩ := hsnapshot _ hdb
    exact ⟨.seen hold name, changed_mono (hE.pending hcheck)⟩

/-- **What a worker holds after a step** it held before, and a notification that names it is still
    there. -/
theorem Backend.holds_step (hb : Sane b.loop)
    (hmain : ∀ name row, e = .imports name row → name ≠ "main") (h : b.step e = some b') :
    Sane b'.loop ∧ b'.pos = b.pos ∧ ∀ name c, b'.Holds name c →
      b.Holds name c ∧ (name ∈ changed b.loop.pending → name ∈ changed b'.loop.pending) := by
  have hmove : ∀ snapshot,
      ((b.loop.step e).map fun loop => { b with loop := loop, snapshot := snapshot }) = some b' →
      e ≠ .loaded → (∀ db, snapshot = some db → b.snapshot = some db ∧ e ≠ .check) →
      Sane b'.loop ∧ b'.pos = b.pos ∧ ∀ name c, b'.Holds name c →
        b.Holds name c ∧ (name ∈ changed b.loop.pending → name ∈ changed b'.loop.pending) := by
    intro snapshot h he hsnapshot
    obtain ⟨loop, hloop, rfl⟩ := Option.map_eq_some_iff.1 h
    obtain ⟨hsane, hE⟩ := sane_step hb hmain hloop
    exact ⟨hsane, rfl, fun name c => holds_move hE he hsnapshot⟩
  have hnone : ∀ db, none = some db → b.snapshot = some db ∧ e ≠ .check := fun db h => by cases h
  cases e with
  | signal n => cases h
  | wait evs => exact hmove none h LoopEvent.noConfusion hnone
  | event env => exact hmove none h LoopEvent.noConfusion hnone
  | check => exact hmove none h LoopEvent.noConfusion hnone
  | done => exact hmove none h LoopEvent.noConfusion hnone
  | fails => exact hmove none h LoopEvent.noConfusion hnone
  | lookup row =>
    rw [Backend.step] at h
    split at h
    · split_ifs at h
      exact hmove b.snapshot h LoopEvent.noConfusion fun _ h => ⟨h, LoopEvent.noConfusion⟩
    · cases h
  | imports name row =>
    rw [Backend.step] at h
    split at h
    · split_ifs at h
      exact hmove b.snapshot h LoopEvent.noConfusion fun _ h => ⟨h, LoopEvent.noConfusion⟩
    · cases h
  | loaded =>
    rw [Backend.step] at h
    split at h
    · next db m rest hdb hl =>
      obtain ⟨loop, hloop, rfl⟩ := Option.map_eq_some_iff.1 h
      obtain ⟨hsane, hE⟩ := sane_step hb hmain hloop
      refine ⟨hsane, rfl, fun name c hc => ?_⟩
      refine ⟨?_, changed_mono (hE.pending LoopEvent.noConfusion)⟩
      cases hc with
      | @cached p hp =>
        rcases hE.registered p hp with hp | ⟨-, m', rest', hl', rfl⟩
        · dsimp only
          rw [Function.update_of_ne (hb.fresh p hp).ne]
          exact .cached hp
        · obtain ⟨rfl, -⟩ := List.cons.inj (hl.symm.trans hl')
          dsimp only
          rw [Function.update_self]
          exact .seen hdb _
      | seen hdb' name => exact .seen (b := b) hdb' name
    · cases h

/-! ## Coherence -/

variable {s s' : System Code Query} {ev : Event Code Query} {i j : ℕ}
  {h : List (System Code Query × Event Code Query)}

/-- What a worker has of a module is what is stored, or it has still to read that the module has
    changed. -/
def Coherent (s : System Code Query) : Prop :=
  ∀ i w, s.workers i = some w → ∀ name c, w.Holds name c →
    c = s.db.stored name ∨ name ∈ changed (w.unread s.queue)

/-- A transaction notifies of each change to a module that a worker has, and does not know to have
    changed. -/
def Announced (s : System Code Query) : Event Code Query → Prop
  | .commit tx => ∀ db names, s.db.transact [] tx = some (db, names) →
    ∀ i w, s.workers i = some w → ∀ name c, w.Holds name c → name ∉ changed (w.unread s.queue) →
      db.stored name ≠ s.db.stored name → name ∈ names
  | _ => True

theorem Database.Announces.announced (htx : s.db.Announces tx) : Announced s (.commit tx) :=
  fun db names h _ _ _ name _ _ _ hne => htx db names h name hne

def System.Inv (s : System Code Query) : Prop :=
  ∀ i w, s.workers i = some w → Sane w.loop ∧ w.pos ≤ s.queue.length

theorem changed_invalidation (names : List String) : changed (names.map invalidation) = names := by
  induction names with
  | nil => rfl
  | cons name names ih =>
    rw [List.map_cons, ← List.singleton_append, changed_append, ih]
    rfl

/-- More notifications, at the end of the queue. -/
theorem Backend.unread_append (hpos : b.pos ≤ queue.length) (ns : List Notification) :
    b.unread (queue ++ ns) = b.unread queue ++ ns := by
  rw [Backend.unread, Backend.unread, List.drop_append_of_le_length hpos, List.append_assoc]

theorem Backend.not_holds_start {pos : ℕ} :
    ¬ Backend.Holds ({ pos := pos } : Backend Code Query) name c := by
  intro hc
  cases hc with
  | cached hp => cases hp
  | seen hdb => cases hdb

theorem sane_start : Sane {} where
  single := ⟨List.nodup_nil, fun n hn => by cases hn⟩
  preparing evs hpc := by cases hpc
  fresh p hp := by cases hp
  running m evs hpc := by cases hpc

/-- The change of a step to one worker: what it has it had before, or sees it in the database, and the
    notifications that it has still to read name it as before. -/
def Moves (s s' : System Code Query) (i : ℕ) (w' : Backend Code Query) : Prop :=
  Sane w'.loop ∧ w'.pos ≤ s'.queue.length ∧ ∀ name c, w'.Holds name c →
    c = s'.db.stored name ∨ ∃ w, s.workers i = some w ∧ w.Holds name c ∧
      (name ∈ changed (w.unread s.queue) → name ∈ changed (w'.unread s'.queue))

/-- The other workers, while the queue grows. -/
theorem moves_append (hI : s.Inv) {db : Database Code Query} (ns : List Notification)
    (hj : s.workers j = some b) :
    Moves s { s with db := db, queue := s.queue ++ ns } j b := by
  obtain ⟨hsane, hpos⟩ := hI j b hj
  refine ⟨hsane, ?_, fun name c hc => .inr ⟨b, hj, hc, fun hch => ?_⟩⟩
  · rw [List.length_append]
    omega
  · rw [Backend.unread_append hpos, changed_append]
    exact List.mem_append_left _ hch

/-- One worker makes a step of its own. -/
theorem moves_setWorker (hI : s.Inv) (hb : Moves s (s.setWorker i b) i b) :
    ∀ j w', (s.setWorker i b).workers j = some w' → Moves s (s.setWorker i b) j w' := by
  intro j w' hw'
  by_cases hij : j = i
  · subst hij
    rw [System.setWorker] at hw'
    dsimp only at hw'
    rw [Function.update_self] at hw'
    obtain rfl := Option.some.inj hw'
    exact hb
  · rw [System.setWorker] at hw'
    dsimp only at hw'
    rw [Function.update_of_ne hij] at hw'
    obtain ⟨hsane, hpos⟩ := hI j w' hw'
    exact ⟨hsane, hpos, fun name c hc => .inr ⟨w', hw', hc, id⟩⟩

/-- **One step** of the system, seen from each worker. -/
theorem moves_step (hI : s.Inv) (h : Step s ev s') :
    ∀ j w', s'.workers j = some w' → Moves s s' j w' := by
  obtain ⟨h, hmain⟩ := h.imports
  have hstart : ∀ i, Moves s (s.setWorker i { pos := s.queue.length }) i { pos := s.queue.length } :=
    fun i => ⟨sane_start, le_rfl, fun name c hc => absurd hc Backend.not_holds_start⟩
  cases ev with
  | commit tx =>
    obtain ⟨r, -, rfl⟩ := Option.map_eq_some_iff.1 h
    exact fun j w' hw' => moves_append hI _ hw'
  | notify n =>
    cases h
    exact fun j w' hw' => moves_append hI _ hw'
  | start i =>
    rw [System.step] at h
    split at h
    · cases h
      exact moves_setWorker hI (hstart i)
    · split at h
      · cases h
        exact moves_setWorker hI (hstart i)
      · cases h
  | signal i =>
    obtain ⟨w, hw, h⟩ := Option.bind_eq_some_iff.1 h
    obtain ⟨n, hn, h⟩ := Option.bind_eq_some_iff.1 h
    obtain ⟨loop, hloop, rfl⟩ := Option.map_eq_some_iff.1 h
    obtain ⟨hsane, hpos⟩ := hI i w hw
    obtain ⟨hsane', hE⟩ := sane_step hsane (fun _ _ h => by cases h) hloop
    refine moves_setWorker hI ⟨hsane', (List.getElem?_eq_some_iff.1 hn).1, fun name c hc => ?_⟩
    cases hloop
    have hunread : Backend.unread { w with
        loop := { w.loop with
          pending := w.loop.pending ++ [n]
          told := w.loop.told ++ named w.loop.cache [n] }
        pos := w.pos + 1 } s.queue = w.unread s.queue := by
      obtain ⟨hlt, hget⟩ := List.getElem?_eq_some_iff.1 hn
      rw [Backend.unread, Backend.unread, ← List.getElem_cons_drop hlt, hget, List.append_assoc]
      rfl
    refine .inr ⟨w, hw, ?_, fun hch => hunread.symm ▸ hch⟩
    cases hc with
    | cached hp => exact .cached (b := w) hp
    | seen hdb => exact .seen (b := w) hdb _
  | snapshot i =>
    obtain ⟨w, hw, h⟩ := Option.bind_eq_some_iff.1 h
    split at h
    · cases h
      obtain ⟨hsane, hpos⟩ := hI i w hw
      refine moves_setWorker hI ⟨hsane, hpos, fun name c hc => ?_⟩
      cases hc with
      | cached hp => exact .inr ⟨w, hw, .cached (b := w) hp, id⟩
      | seen hdb =>
        cases hdb
        exact .inl rfl
    · cases h
  | step i e =>
    obtain ⟨w, hw, h⟩ := Option.bind_eq_some_iff.1 h
    obtain ⟨w', hw', rfl⟩ := Option.map_eq_some_iff.1 h
    obtain ⟨hsane, hpos⟩ := hI i w hw
    have hname : ∀ name row, e = .imports name row → name ≠ "main" := by
      rintro name row rfl
      exact of_decide_eq_false hmain
    obtain ⟨hsane', hpos', hheld⟩ := Backend.holds_step hsane hname hw'
    refine moves_setWorker hI ⟨hsane', hpos'.le.trans hpos, fun name c hc => .inr ?_⟩
    obtain ⟨hold, hpending⟩ := hheld name c hc
    refine ⟨w, hw, hold, fun hch => ?_⟩
    rw [Backend.unread, changed_append, List.mem_append] at hch ⊢
    rw [hpos']
    exact hch.imp hpending id

theorem System.Inv.step (hI : s.Inv) (h : Step s ev s') : s'.Inv := fun j w' hw' =>
  ⟨(moves_step hI h j w' hw').1, (moves_step hI h j w' hw').2.1⟩

/-- Only a commit changes what is stored. -/
theorem step_db (h : Step s ev s') : s'.db = s.db ∨ ∃ tx db names, ev = .commit tx ∧
    s.db.transact [] tx = some (db, names) ∧
    s' = { s with db := db, queue := s.queue ++ names.map invalidation } := by
  obtain ⟨h, -⟩ := h.imports
  cases ev with
  | commit tx =>
    obtain ⟨⟨db, names⟩, htx, rfl⟩ := Option.map_eq_some_iff.1 h
    exact .inr ⟨tx, db, names, rfl, htx, rfl⟩
  | notify n =>
    cases h
    exact .inl rfl
  | start i =>
    rw [System.step] at h
    split at h
    · cases h
      exact .inl rfl
    · split at h
      · cases h
        exact .inl rfl
      · cases h
  | signal i =>
    obtain ⟨w, -, h⟩ := Option.bind_eq_some_iff.1 h
    obtain ⟨n, -, h⟩ := Option.bind_eq_some_iff.1 h
    obtain ⟨loop, -, rfl⟩ := Option.map_eq_some_iff.1 h
    exact .inl rfl
  | snapshot i =>
    obtain ⟨w, -, h⟩ := Option.bind_eq_some_iff.1 h
    split at h
    · cases h
      exact .inl rfl
    · cases h
  | step i e =>
    obtain ⟨w, -, h⟩ := Option.bind_eq_some_iff.1 h
    obtain ⟨w', -, rfl⟩ := Option.map_eq_some_iff.1 h
    exact .inl rfl

/-- The notifications of a transaction, for a worker. -/
theorem changed_commit (hI : s.Inv) (hw : s.workers i = some b) (names : List String) :
    name ∈ changed (b.unread (s.queue ++ names.map invalidation)) ↔
      name ∈ changed (b.unread s.queue) ∨ name ∈ names := by
  rw [Backend.unread_append (hI i b hw).2, changed_append, changed_invalidation, List.mem_append]

theorem Coherent.step (hI : s.Inv) (hS : Coherent s) (hC : Announced s ev) (h : Step s ev s') :
    Coherent s' := by
  intro i w' hw' name c hc
  rcases (moves_step hI h i w' hw').2.2 name c hc with rfl | ⟨w, hw, hold, hunread⟩
  · exact .inl rfl
  rcases hS i w hw name c hold with rfl | hch
  · rcases step_db h with hdb | ⟨tx, db, names, rfl, htx, rfl⟩
    · exact .inl (by rw [hdb])
    · by_cases hch : name ∈ changed (w.unread s.queue)
      · exact .inr (hunread hch)
      by_cases hsame : db.stored name = s.db.stored name
      · exact .inl hsame.symm
      · obtain rfl := Option.some.inj (hw.symm.trans hw')
        exact .inr ((changed_commit hI hw names).2 (.inr (hC db names htx i w hw name _ hold hch hsame)))
  · exact .inr (hunread hch)

/-- A change that is not announced makes a worker incoherent. -/
theorem not_coherent_step (hI : s.Inv) (hS : Coherent s) (hC : ¬ Announced s ev) (h : Step s ev s') :
    ¬ Coherent s' := by
  cases ev with
  | commit tx =>
    refine fun hS' => hC fun db names htx i w hw name c hc hch hne => ?_
    have hs' : s' = { s with db := db, queue := s.queue ++ names.map invalidation } := by
      obtain ⟨r, hr, rfl⟩ := Option.map_eq_some_iff.1 h.imports.1
      obtain rfl := Option.some.inj (hr.symm.trans htx)
      rfl
    subst hs'
    have hcur := (hS i w hw name c hc).resolve_right hch
    have hnew := (hS' i w hw name c hc).resolve_left fun heq => hne (heq.symm.trans hcur)
    exact ((changed_commit hI hw names).1 hnew).resolve_left hch
  | _ => exact absurd trivial hC

/-- No worker has started yet. -/
def System.start (db : Database Code Query) : System Code Query := { db := db }

/-- The worker has no notification to read. -/
def UpToDate (i : ℕ) (s : System Code Query) : Prop :=
  ∀ w, s.workers i = some w → w.unread s.queue = []

/-- The database now, or at some time since the worker last was up to date. -/
inductive Recent (i : ℕ) : List (System Code Query × Event Code Query) → System Code Query →
    Database Code Query → Prop
  | now {h : List (System Code Query × Event Code Query)} {s : System Code Query} : Recent i h s s.db
  | before {h : List (System Code Query × Event Code Query)} {s s' : System Code Query}
      {ev : Event Code Query} {db : Database Code Query} (hno : ¬ UpToDate i s') (hr : Recent i h s db) :
      Recent i ((s, ev) :: h) s' db

theorem held_recent (hr : Run Step (.start db) h s) (hC : Meets Announced h)
    (hw : s.workers i = some b) (hc : b.Holds name c) :
    ∃ db', Recent i h s db' ∧ c = db'.stored name := by
  induction hr generalizing b name c with
  | nil => cases hw
  | @snoc h s ev s' hr hstep ih =>
    have hC' := (meets_cons _).1 hC
    have hIS : Always (fun s => s.Inv ∧ Coherent s) h s := by
      refine hr.always_of_meets ⟨fun i w hw => (by cases hw), fun i w hw => (by cases hw)⟩ ?_ hC'.2
      exact fun s ev s' hI hC hstep => ⟨hI.1.step hstep, hI.2.step hI.1 hC hstep⟩
    obtain ⟨hI, hS⟩ := hIS.last
    by_cases hup : UpToDate i s'
    · refine ⟨s'.db, .now, (hS.step hI hC'.1 hstep i b hw name c hc).resolve_right fun hch => ?_⟩
      rw [hup b hw] at hch
      cases hch
    · rcases (moves_step hI hstep i b hw).2.2 name c hc with rfl | ⟨w, hw, hold, -⟩
      · exact ⟨s'.db, .now, rfl⟩
      · obtain ⟨db', hrec, hdb'⟩ := ih hC'.2 hw hold
        exact ⟨db', .before hup hrec, hdb'⟩

/-- A worker comes to a request. -/
def takesRequest : List (Event ℕ ℕ) :=
  [.step 0 (.wait [wlSocketWriteable]), .step 0 (.event {}), .step 0 .check,
    .step 0 (.wait [wlSocketReadable]), .step 0 (.event {}), .snapshot 0]

/-- An application with one query is deployed, and serves a request. -/
def deployed : List (Event ℕ ℕ) :=
  [.commit [.insertModule "main" 1, .insertQuery ("main", 0) 10], .start 0] ++ takesRequest ++
    [.step 0 (.lookup true), .step 0 .loaded, .step 0 .done, .step 0 .check]

def newVersion : List (Statement ℕ ℕ) :=
  [.updateModule "main" "main" 2, .updateQuery ("main", 0) ("main", 0) 20]

/-- The application and its query are written in one transaction. -/
theorem announces_deployed (db : Database ℕ ℕ) :
    db.Announces [.insertModule "main" 1, .insertQuery ("main", 0) 10] := by
  refine announced_of_deploy (List.forall_mem_cons.2 ⟨?_, List.forall_mem_singleton.2 ?_⟩)
  · exact fun name htouch => ⟨_, List.mem_cons_self, congrArg some htouch.symm⟩
  · exact fun name htouch => ⟨_, List.mem_cons_self, congrArg some htouch.symm⟩

theorem announces_newVersion (db : Database ℕ ℕ) : db.Announces newVersion := by
  refine announced_of_deploy (List.forall_mem_cons.2 ⟨?_, List.forall_mem_singleton.2 ?_⟩)
  · exact fun name htouch => ⟨_, List.mem_cons_self, congrArg some (htouch.elim id id).symm⟩
  · exact fun name htouch => ⟨_, List.mem_cons_self, congrArg some (htouch.elim id id).symm⟩

end Rustica.Coherence
