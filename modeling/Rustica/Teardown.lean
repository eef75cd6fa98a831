/-
  The life of a module instance, and its end.

  Three places instantiate a module and make an `exec_env` for it: `on_readable` for a request,
  `compile_queries` for the compiler, and `run_wasm_with` for the command line.  Whatever happens in
  their try blocks, the cleanup takes both down.  `wasm_runtime_deinstantiate` destroys the heap of the
  guest, and with it runs `obj_finalizer` of every host object that is still alive; the finalizer of
  an object with a local reference unlinks it from the `exec_env` that the object was made with.

  The request is the one of `Rustica.Request`, here with its context, and without its transaction and
  its descriptors.  The context is taken to be still there in the cleanup, though its block has ended.
  No guest code runs before there is an `exec_env`.  Of the other places what concerns neither the
  instance nor the `exec_env` is left out, except where it can raise an error.
-/
import Rustica.Objects
import Rustica.Request

namespace Rustica.Teardown

open PgTry PgTry.Code

/-- What is done to an instance and its `exec_env`. -/
inductive InstanceAct where
  | instantiate
  | createExecEnv
  /-- `obj_finalizer` -/
  | finalize (o : Obj)
  | deinstantiate
  | pfree (b : Block)
  | destroyExecEnv

/-- The fields of `Context` that are set after its initializer, which zeroes them.  `anyrefArray`
    is the allocation of the type and of its run-time type. -/
structure Context where
  waitSet : Bool := false
  queries : Bool := false
  anyrefArray : Option Block := none

/-- The variables for the instance and the `exec_env`, the user data of the `exec_env`, the host
    objects alive, and the record of what was done, the latest first. -/
structure Host where
  moduleInst : Bool := false
  execEnv : Bool := false
  userData : Option Context := none
  objects : List Obj := []
  log : List InstanceAct := []

def note (a : InstanceAct) (s : Host) : Host := { s with log := a :: s.log }

/-- Guest code runs until it returns, traps or raises; either way these objects are alive then. -/
def guest (alive : List Obj) (fails : Bool) : Code Host Unit := do
  update fun s => { s with objects := alive }
  call fails

def wasmRuntimeDeinstantiate : Code Host Unit := update fun s => { s with
  objects := []
  log := .deinstantiate :: (s.objects.map .finalize ++ s.log) }

/-! ## `on_readable` -/

/-- What a request meets, with the objects alive when `get_queries` and `_start` end, and the
    allocation that `palloc0` returns for the array type. -/
structure RequestInputs extends Inputs where
  queried : List Obj
  started : List Obj
  arrType : Block

def connect (inp : RequestInputs) : Code Host Unit := do
  call (!inp.database)
  call (inp.fails .startTransactionCommand)
  call (inp.fails .spiConnect)
  call (inp.fails .getTransactionSnapshot)
  call (inp.fails .pushActiveSnapshot)

def rstModuleInstantiate (inp : RequestInputs) : Code Host Unit := do
  call (inp.fails .instantiate) (note .instantiate)
  if inp.fails .createExecEnv then do
    wasmRuntimeDeinstantiate
    call true
  else update (note .createExecEnv)

/-- The module is looked up, loaded if need be, and instantiated. -/
def load (inp : RequestInputs) : Code Host Unit := do
  call (!inp.cached && inp.fails .prepareModule)
  rstModuleInstantiate inp
  update fun s => { s with execEnv := true }

/-- A field of the context is set, found by the user data of the `exec_env`. -/
def setContext (f : Context → Context) : Code Host Unit := do
  let s ← state
  let ctx ← deref s.userData
  update fun s => { s with userData := some (f ctx) }

def rstInitInstanceContext (inp : RequestInputs) : Code Host Unit := do
  guest inp.queried (inp.fails .getQueries)
  setContext fun ctx => { ctx with queries := true }

def rstInitContextForJsonb (inp : RequestInputs) : Code Host Unit := do
  call (inp.fails .jsonbContext)
  setContext fun ctx => { ctx with anyrefArray := some inp.arrType }

/-- From the context to the end of `_start`. -/
def run (inp : RequestInputs) : Code Host Unit := do
  update fun s => { s with userData := some {} }
  call (inp.fails .createWaitEventSet)
  setContext fun ctx => { ctx with waitSet := true }
  call (inp.fails .addLatch)
  call (inp.fails .addClient)
  rstInitInstanceContext inp
  rstInitContextForJsonb inp
  call (inp.fails .findStart)
  guest inp.started (inp.fails .start)

/-- `pfree(ctx->anyref_array->defined_type)`. -/
def rstFreeInstanceContext : Code Host Unit := do
  let s ← state
  let ctx ← deref s.userData
  let arrType ← deref ctx.anyrefArray
  update (note (.pfree arrType))

def cleanup : Code Host Unit := do
  let s ← state
  if s.execEnv then do
    wasmRuntimeDeinstantiate
    rstFreeInstanceContext
    update (note .destroyExecEnv)
  else pure ()

def onReadable (inp : RequestInputs) : Code Host Unit :=
  pgFinally (do connect inp; load inp; run inp) fun _ => cleanup

/-! ## `compile_queries` and `run_wasm_with` -/

/-- The cleanup of both. -/
def destroyThenDeinstantiate : Code Host Unit := do
  let s ← state
  if s.execEnv then update (note .destroyExecEnv) else pure ()
  if s.moduleInst then wasmRuntimeDeinstantiate else pure ()

inductive CompileCall where
  | signature | tooManyQueries | instantiate | createExecEnv | getQueries | lookupRowtype
  | compileQuery | constructArray
  deriving DecidableEq

structure CompileInputs where
  noQueries : Bool
  fails : CompileCall → Bool
  /-- the objects alive when the try block is left, once `get_queries` was called -/
  alive : List Obj

/-- The try block of `compile_queries`. -/
def compileBody (inp : CompileInputs) : Code Host Unit := do
  call (inp.fails .instantiate) fun s => note .instantiate { s with moduleInst := true }
  call (inp.fails .createExecEnv) fun s => note .createExecEnv { s with execEnv := true }
  guest inp.alive (inp.fails .getQueries)
  call (inp.fails .lookupRowtype)
  call (inp.fails .compileQuery)

def compileQueries (inp : CompileInputs) : Code Host Unit := do
  call (inp.fails .signature)
  if inp.noQueries then pure ()
  else do
    call (inp.fails .tooManyQueries)
    pgFinally (compileBody inp) fun _ => destroyThenDeinstantiate
    call (inp.fails .constructArray)

inductive RunCall where
  | initWamr | readWasmFile | compileAot | loadWasmModule | instantiate | createExecEnv | fn
  deriving DecidableEq

structure RunInputs where
  useAot : Bool
  fails : RunCall → Bool
  /-- the objects alive when `fn` ends -/
  alive : List Obj

/-- The try block of `run_wasm_with`. -/
def runBody (inp : RunInputs) : Code Host Unit := do
  call (inp.fails .initWamr)
  call (inp.fails .readWasmFile)
  call (inp.useAot && inp.fails .compileAot)
  call (inp.fails .loadWasmModule)
  call (inp.fails .instantiate) fun s => note .instantiate { s with moduleInst := true }
  call (inp.fails .createExecEnv) fun s => note .createExecEnv { s with execEnv := true }
  guest inp.alive (inp.fails .fn)

def runWasmWith (inp : RunInputs) : Code Host Unit :=
  pgFinally (runBody inp) fun _ => destroyThenDeinstantiate

/-! ## Cleanup after partial setup -/

/-- The request gets as far as an `exec_env`. -/
def RequestInputs.Instantiated (inp : RequestInputs) : Prop :=
  ¬ inp.Early ∧ ¬ inp.Unflagged ∧ ¬ inp.Unloaded

/-- It then fails before `anyref_array` is set. -/
def RequestInputs.Halfway (inp : RequestInputs) : Prop :=
  inp.Instantiated ∧ (inp.fails .createWaitEventSet = true ∨ inp.fails .addLatch = true ∨
    inp.fails .addClient = true ∨ inp.fails .getQueries = true ∨ inp.fails .jsonbContext = true)

variable {inp : RequestInputs} {s : Host}

theorem wp_setContext {f : Context → Context} {ctx : Context} {Q : Ending Unit → Host → Prop}
    (hs : s.userData = some ctx) :
    wp (setContext f) Q s ↔ Q (.returned ()) { s with userData := some (f ctx) } := by
  simp [setContext, hs]

theorem wp_guest {alive : List Obj} {fails : Bool} {Q : Ending Unit → Host → Prop} :
    wp (guest alive fails) Q s ↔
      Q (if fails then .raised else .returned ()) { s with objects := alive } := by
  cases fails <;> simp [guest]

/-- The steps up to the `exec_env` raise an error and leave none, or the request is instantiated. -/
theorem load_ends (inp : RequestInputs) : wp (do connect inp; load inp) (fun e s =>
    (e = .raised ∧ ¬ inp.Instantiated ∧ s.execEnv = false) ∨
      (e = .returned () ∧ inp.Instantiated ∧
        s = { execEnv := true, log := [.createExecEnv, .instantiate] })) {} := by
  simp only [connect, load, rstModuleInstantiate, wasmRuntimeDeinstantiate, wp_bind, wp_call,
    andThen_raised, andThen_returned]
  refine ⟨fun h => .inl ⟨trivial, fun hI => hI.1 (.inl (by simpa using h)), trivial⟩, fun h1 => ?_⟩
  refine ⟨fun h => .inl ⟨trivial, fun hI => hI.1 (.inr h), rfl⟩, fun h2 => ?_⟩
  refine ⟨fun h => .inl ⟨trivial, fun hI => hI.2.1 ⟨hI.1, .inl h⟩, rfl⟩, fun h3 => ?_⟩
  refine ⟨fun h => .inl ⟨trivial, fun hI => hI.2.1 ⟨hI.1, .inr (.inl h)⟩, rfl⟩, fun h4 => ?_⟩
  refine ⟨fun h => .inl ⟨trivial, fun hI => hI.2.1 ⟨hI.1, .inr (.inr h)⟩, rfl⟩, fun h5 => ?_⟩
  refine ⟨fun h => .inl ⟨trivial, fun hI => hI.2.2 ⟨hI.1, hI.2.1, .inl (by simpa using h)⟩, rfl⟩,
    fun h6 => ?_⟩
  refine ⟨fun h => .inl ⟨trivial, fun hI => hI.2.2 ⟨hI.1, hI.2.1, .inr (.inl h)⟩, rfl⟩, fun h7 => ?_⟩
  by_cases h8 : inp.fails .createExecEnv = true
  · simp only [if_pos h8, wp_bind, wp_call, wp_update, andThen_raised, andThen_returned]
    exact ⟨fun _ => .inl ⟨trivial, fun hI => hI.2.2 ⟨hI.1, hI.2.1, .inr (.inr h8)⟩, rfl⟩,
      fun h => by cases h⟩
  rw [if_neg h8]
  refine .inr ⟨rfl, ⟨?_, ?_, ?_⟩, rfl⟩
  · rintro (h | h) <;> simp_all
  · rintro ⟨-, h | h | h⟩ <;> simp_all
  · rintro ⟨-, -, ⟨h, h'⟩ | h | h⟩ <;> simp_all

/-- The user data of the `exec_env` is a context whose `anyref_array` is set. -/
def HasArrayType (s : Host) : Prop :=
  ∃ ctx arrType, s.userData = some ctx ∧ ctx.anyrefArray = some arrType

/-- From the context on an error is raised before `anyref_array` is set, or after. -/
theorem run_ends {s : Host} (hs : s.execEnv = true) : wp (run inp) (fun e s => s.execEnv = true ∧
    e ≠ .crashed ∧ (HasArrayType s ↔ ¬ (inp.fails .createWaitEventSet = true ∨
      inp.fails .addLatch = true ∨ inp.fails .addClient = true ∨ inp.fails .getQueries = true ∨
      inp.fails .jsonbContext = true))) s := by
  have hbare : ∀ {ctx : Context} {s : Host}, s.userData = some ctx → ctx.anyrefArray = none →
      ¬ HasArrayType s := by
    rintro ctx s h1 h2 ⟨ctx', b, h1', h2'⟩
    cases h1.symm.trans h1'
    simp [h2] at h2'
  rw [run, wp_bind, wp_update, andThen_returned, wp_bind, wp_call]
  refine ⟨fun h => ⟨hs, nofun, iff_of_false (hbare rfl rfl) (not_not.2 (.inl h))⟩, fun h1 => ?_⟩
  rw [andThen_returned, wp_bind, wp_setContext rfl, andThen_returned, wp_bind, wp_call]
  refine ⟨fun h => ⟨hs, nofun, iff_of_false (hbare rfl rfl) (not_not.2 (.inr (.inl h)))⟩,
    fun h2 => ?_⟩
  rw [andThen_returned, wp_bind, wp_call]
  refine ⟨fun h => ⟨hs, nofun, iff_of_false (hbare rfl rfl) (not_not.2 (.inr (.inr (.inl h))))⟩,
    fun h3 => ?_⟩
  rw [andThen_returned, wp_bind, rstInitInstanceContext, wp_bind, wp_guest]
  by_cases h4 : inp.fails .getQueries = true
  · rw [if_pos h4]
    exact ⟨hs, nofun, iff_of_false (hbare rfl rfl) (not_not.2 (.inr (.inr (.inr (.inl h4)))))⟩
  rw [if_neg h4, andThen_returned, wp_setContext rfl, andThen_returned, wp_bind,
    rstInitContextForJsonb, wp_bind, wp_call]
  refine ⟨fun h => ⟨hs, nofun, iff_of_false (hbare rfl rfl)
    (not_not.2 (.inr (.inr (.inr (.inr h)))))⟩, fun h5 => ?_⟩
  -- from here on the array type is there, whatever happens
  have hset : ¬ (inp.fails .createWaitEventSet = true ∨ inp.fails .addLatch = true ∨
      inp.fails .addClient = true ∨ inp.fails .getQueries = true ∨
      inp.fails .jsonbContext = true) := by
    simp [h1, h2, h3, h4, h5]
  rw [andThen_returned, wp_setContext rfl, andThen_returned, wp_bind, wp_call]
  refine ⟨fun _ => ⟨hs, nofun, iff_of_true ⟨_, _, rfl, rfl⟩ hset⟩, fun _ => ?_⟩
  rw [andThen_returned, wp_guest]
  refine ⟨hs, ?_, iff_of_true ⟨_, _, rfl, rfl⟩ hset⟩
  split <;> exact nofun

/-- The cleanup follows `anyref_array` if there is an `exec_env`. -/
theorem cleanup_ends (s : Host) : wp cleanup (fun e _ =>
    (e = .returned () ∧ (s.execEnv = true → HasArrayType s)) ∨
      (e = .crashed ∧ ¬ (s.execEnv = true → HasArrayType s))) s := by
  obtain ⟨inst, env, data, objects, log⟩ := s
  cases env with
  | false => simp [cleanup]
  | true =>
    simp only [cleanup, rstFreeInstanceContext, wasmRuntimeDeinstantiate, HasArrayType, wp_bind,
      wp_state, wp_update, andThen_returned, if_true]
    rcases data with _ | ⟨wait, queries, _ | arrType⟩ <;> simp

theorem cleanup_returns_iff (s : Host) :
    wp cleanup (fun e _ => e ≠ .crashed) s ↔ (s.execEnv = true → HasArrayType s) := by
  refine wp_iff (cleanup_ends s) fun e _ h => ?_
  rcases h with ⟨rfl, h⟩ | ⟨rfl, h⟩
  · exact iff_of_true nofun h
  · exact iff_of_false (fun hne => hne rfl) h

theorem rethrow_crashed {e : Ending Unit} : rethrow e = .crashed ↔ e = .crashed := by
  cases e <;> simp [rethrow]

/-- How the try block ends. -/
theorem body_ends (inp : RequestInputs) : wp (do connect inp; load inp; run inp) (fun e s =>
    e ≠ .crashed ∧ ((s.execEnv = true → HasArrayType s) ↔ ¬ inp.Halfway)) {} := by
  rw [← Code.bind_assoc, wp_bind]
  refine wp_mono (load_ends inp) fun e s h => ?_
  rcases h with ⟨rfl, hI, henv⟩ | ⟨rfl, hI, rfl⟩
  · exact ⟨nofun, iff_of_true (fun h => by simp [henv] at h) fun h => hI h.1⟩
  · rw [andThen_returned]
    refine wp_mono (run_ends rfl) fun e s h => ⟨h.2.1, ?_⟩
    rw [RequestInputs.Halfway, and_iff_right hI, ← h.2.2]
    exact ⟨fun h' => h' h.1, fun h' _ => h'⟩

/-- **The cleanup of a request finds what it frees exactly if no step fails between the `exec_env` and
    the array type of its context**; else it follows a null pointer. -/
theorem cleanup_safe_iff (inp : RequestInputs) :
    (wp (do connect inp; load inp; run inp) (fun _ s => s.execEnv = true → HasArrayType s) {} ↔
      ¬ inp.Halfway) ∧
    (wp (onReadable inp) (fun e _ => e ≠ .crashed) {} ↔ ¬ inp.Halfway) := by
  refine ⟨wp_iff (body_ends inp) fun e s h => h.2, ?_⟩
  rw [onReadable, wp_pgFinally]
  refine wp_iff (body_ends inp) fun e s h => ?_
  rw [← h.2, ← cleanup_returns_iff]
  cases e with
  | returned => rfl
  | raised =>
    simp only [ne_eq, rethrow_crashed]
  | crashed => exact absurd rfl h.1

/-- The module exports a `get_queries` that traps. -/
def trappingRequest : RequestInputs where
  database := true
  cached := true
  starts := true
  fails c := c = .getQueries
  queried := []
  started := []
  arrType := 0

theorem trapping_request_crashes :
    wp (onReadable trappingRequest) (fun e _ => e = .crashed) {} := rfl

/-! ## The request of `Rustica.Request`

It has a flag for `anyref_array` in place of the context, and ends in the same way. -/

/-- What the two models have in common before there is a context. -/
structure AgreesBefore (s : Host) (r : Request) : Prop where
  execEnv : s.execEnv = r.execEnv
  userData : s.userData = none
  anyrefArray : r.anyrefArray = false

/-- And from then on. -/
structure AgreesAfter (s : Host) (r : Request) : Prop where
  execEnv : s.execEnv = r.execEnv
  userData : ∃ ctx, s.userData = some ctx ∧ ctx.anyrefArray.isSome = r.anyrefArray

theorem connect_alike (inp : RequestInputs) :
    Alike AgreesBefore (connect inp) (Rustica.connect inp.toInputs) := by
  have hnote : ∀ s r e, AgreesBefore s r → AgreesBefore s (Rustica.note e r) :=
    fun _ _ _ h => ⟨h.execEnv, h.userData, h.anyrefArray⟩
  refine .bind (.call fun _ _ h => h) fun _ => .bind (.call fun _ _ h => hnote _ _ _ h) fun _ =>
    .bind (.call fun _ _ h => hnote _ _ _ h) fun _ => .bind (.call fun _ _ h => h) fun _ => ?_
  -- `spi_connected` is a variable of the other model only
  have hsnapshot : Alike AgreesBefore (call (inp.fails .pushActiveSnapshot))
      (call (inp.fails .pushActiveSnapshot) (acquire .snapshot)) :=
    .call fun _ _ h => hnote _ _ _ h
  exact (hsnapshot.symm.leftLast fun r s h => ⟨rfl, h.execEnv, h.userData, h.anyrefArray⟩).symm

theorem load_alike (inp : RequestInputs) :
    Alike AgreesBefore (load inp) (Rustica.load inp.toInputs) := by
  have hinst : Alike AgreesBefore (rstModuleInstantiate inp)
      (Rustica.rstModuleInstantiate inp.toInputs) := by
    refine .bind (.call fun _ _ h => ⟨h.execEnv, h.userData, h.anyrefArray⟩) fun _ => ?_
    split
    · refine .bind (.update fun _ _ h => ?_) fun _ => .call fun _ _ h => h
      exact ⟨h.execEnv, h.userData, h.anyrefArray⟩
    · exact .update fun _ _ h => ⟨h.execEnv, h.userData, h.anyrefArray⟩
  exact .bind (.call fun _ _ h => h) fun _ => .bind hinst fun _ =>
    .update fun _ _ h => ⟨rfl, h.userData, h.anyrefArray⟩

/-- The fields of the context apart from `anyref_array` are in one of the models only. -/
theorem setContext_after {f : Context → Context} (hf : ∀ ctx, (f ctx).anyrefArray = ctx.anyrefArray)
    (s : Host) (r : Request) (h : AgreesAfter s r) :
    (setContext f s).1 = .returned () ∧ AgreesAfter (setContext f s).2 r := by
  obtain ⟨ctx, hctx, harr⟩ := h.userData
  refine (wp_setContext (Q := fun e s => e = .returned () ∧ AgreesAfter s r) hctx).2 ⟨rfl, ?_⟩
  exact ⟨h.execEnv, f ctx, rfl, by rw [hf]; exact harr⟩

theorem guest_alike {alive : List Obj} {fails : Bool} {f : Request → Request}
    (hf : ∀ s r, AgreesAfter s r → AgreesAfter s (f r)) :
    Alike AgreesAfter (guest alive fails) (call fails f) :=
  .left (fun _ _ h => ⟨rfl, h.execEnv, h.userData⟩) (.call fun s r h => hf s r h)

theorem rstInitContextForJsonb_alike (inp : RequestInputs) : Alike AgreesAfter
    (rstInitContextForJsonb inp) (Rustica.rstInitContextForJsonb inp.toInputs) := by
  intro s r h
  obtain ⟨ctx, hctx, -⟩ := h.userData
  rw [rstInitContextForJsonb, Rustica.rstInitContextForJsonb]
  cases inp.fails .jsonbContext with
  | true => exact ⟨rfl, h⟩
  | false =>
    have hset : wp (setContext fun ctx => { ctx with anyrefArray := some inp.arrType }) (fun e s =>
        e = .returned () ∧ AgreesAfter s { r with anyrefArray := true }) s :=
      (wp_setContext hctx).2 ⟨rfl, h.execEnv, _, rfl, rfl⟩
    exact hset

theorem run_alike (inp : RequestInputs) {s : Host} {r : Request} (h : AgreesBefore s r) :
    (run inp s).1 = (Rustica.run inp.toInputs r).1 ∧
      AgreesAfter (run inp s).2 (Rustica.run inp.toInputs r).2 := by
  have hcall : ∀ b, Alike AgreesAfter (call b) (call b) := fun _ => .call fun _ _ h => h
  have hwait : Alike AgreesAfter (do
      call (inp.fails .createWaitEventSet)
      setContext fun ctx => { ctx with waitSet := true })
      (call (inp.fails .createWaitEventSet) (acquire .waitSet)) :=
    .leftLast (.call fun _ _ h => ⟨h.execEnv, h.userData⟩) (setContext_after fun _ => rfl)
  have hqueries : Alike AgreesAfter (rstInitInstanceContext inp) (call (inp.fails .getQueries)) :=
    .leftLast (guest_alike fun _ _ h => h) (setContext_after fun _ => rfl)
  have hstart : Alike AgreesAfter (guest inp.started (inp.fails .start))
      (call (inp.fails .start) fun s => { s with success := inp.starts }) :=
    guest_alike fun _ _ h => ⟨h.execEnv, h.userData⟩
  have hrun := hwait.bind fun _ => (hcall (inp.fails .addLatch)).bind fun _ =>
    (hcall (inp.fails .addClient)).bind fun _ => hqueries.bind fun _ =>
      (rstInitContextForJsonb_alike inp).bind fun _ => (hcall (inp.fails .findStart)).bind
        fun _ => hstart
  have hctx : AgreesAfter { s with userData := some {} } r :=
    ⟨h.execEnv, {}, rfl, h.anyrefArray.symm⟩
  have := hrun _ _ hctx
  rw [Code.bind_assoc] at this
  exact this

/-- The two cleanups crash alike, and raise no error. -/
theorem cleanup_alike {s : Host} {r : Request} (b : Bool) (he : s.execEnv = r.execEnv)
    (ha : HasArrayType s ↔ r.anyrefArray = true) : (cleanup s).1 = (Rustica.cleanup b r).1 := by
  have hends := cleanup_ends s
  rw [he, ha] at hends
  by_cases h : r.execEnv = true → r.anyrefArray = true
  · have hreq : wp (Rustica.cleanup b) (fun e _ => e = .returned ()) r :=
      (Rustica.cleanup_returns h).2 rfl
    exact (hends.resolve_right fun h' => h'.2 h).1.trans hreq.symm
  · have hreq : wp (Rustica.cleanup b) (fun e _ => e = .crashed) r := by
      simp only [Classical.not_imp, Bool.not_eq_true] at h
      exact (Rustica.cleanup_crashes h.1 h.2).2 rfl
    exact (hends.resolve_left fun h' => h h'.2).1.trans hreq.symm

theorem AgreesAfter.hasArrayType {s : Host} {r : Request} (h : AgreesAfter s r) :
    HasArrayType s ↔ r.anyrefArray = true := by
  obtain ⟨ctx, hctx, harr⟩ := h.userData
  rw [← harr, Option.isSome_iff_exists]
  constructor
  · rintro ⟨ctx', b, h1, h2⟩
    cases hctx.symm.trans h1
    exact ⟨b, h2⟩
  · rintro ⟨b, h2⟩
    exact ⟨ctx, b, hctx, h2⟩

theorem AgreesBefore.hasArrayType {s : Host} {r : Request} (h : AgreesBefore s r) :
    HasArrayType s ↔ r.anyrefArray = true := by
  rw [h.anyrefArray]
  refine iff_of_false ?_ (by simp)
  rintro ⟨ctx, b, h1, -⟩
  simp [h.userData] at h1

/-- The two try blocks end alike, in states that the cleanups do not tell apart. -/
theorem body_alike (inp : RequestInputs) {s : Host} {r : Request} {c : Code Host Unit}
    {d : Code Request Unit} (h : AgreesBefore s r) (hc : c = do connect inp; load inp; run inp)
    (hd : d = do
      Rustica.connect inp.toInputs; Rustica.load inp.toInputs; Rustica.run inp.toInputs) :
    (c s).1 = (d r).1 ∧ (c s).2.execEnv = (d r).2.execEnv ∧
      (HasArrayType (c s).2 ↔ (d r).2.anyrefArray = true) := by
  have hload := (connect_alike inp).bind (fun _ => load_alike inp) s r h
  rw [hc, hd, ← Code.bind_assoc, ← Code.bind_assoc,
    Code.bind_apply (do connect inp; load inp) _ s,
    Code.bind_apply (do Rustica.connect inp.toInputs; Rustica.load inp.toInputs) _ r]
  rcases hx : (do connect inp; load inp : Code Host Unit) s with ⟨e, s'⟩
  rcases hy : (do Rustica.connect inp.toInputs; Rustica.load inp.toInputs : Code Request Unit) r
    with ⟨e', r'⟩
  rw [hx, hy] at hload
  obtain ⟨rfl, hR⟩ := hload
  cases e with
  | returned _ =>
    obtain ⟨he, hA⟩ := run_alike inp hR
    exact ⟨he, hA.execEnv, hA.hasArrayType⟩
  | raised | crashed => exact ⟨rfl, hR.execEnv, hR.hasArrayType⟩

/-- **A request ends here as it does in the other model.** -/
theorem onReadable_alike (inp : RequestInputs) :
    (onReadable inp {}).1 = (Rustica.onReadable inp.toInputs received).1 := by
  have hstart : AgreesBefore {} received := ⟨rfl, rfl, rfl⟩
  obtain ⟨he, henv, harr⟩ := body_alike inp hstart rfl rfl
  exact pgFinally_ending he fun b => cleanup_alike b henv harr

/-! ## Finalizers and the `exec_env` -/

/-- Objects with a local reference are finalized before the `exec_env` is destroyed. -/
def UnlinkedBefore : List InstanceAct → Prop
  | [] => True
  | .finalize o :: l => (o.ref ≠ none → .destroyExecEnv ∉ l) ∧ UnlinkedBefore l
  | _ :: l => UnlinkedBefore l

/-- The `exec_env` is there, and everything so far was in order. -/
structure Undestroyed (s : Host) : Prop where
  log : .destroyExecEnv ∉ s.log
  unlinked : UnlinkedBefore s.log

/-- All objects alive are finalized at once. -/
theorem unlinkedBefore_finalize (l : List Obj) (log : List InstanceAct) :
    UnlinkedBefore (l.map .finalize ++ log) ↔
      (∀ o ∈ l, o.ref ≠ none → .destroyExecEnv ∉ log) ∧ UnlinkedBefore log := by
  induction l with
  | nil => simp
  | cons o l ih =>
    simp only [List.map_cons, List.cons_append, UnlinkedBefore, ih, List.mem_append, List.mem_map,
      reduceCtorEq, and_false, exists_false, false_or, List.forall_mem_cons]
    exact and_assoc.symm

namespace Undestroyed

theorem keeps_update {g : Host → Host} (hg : ∀ s, (g s).log = s.log) :
    Keeps Undestroyed (update g) :=
  .update fun s h => ⟨by rw [hg]; exact h.log, by rw [hg]; exact h.unlinked⟩

theorem deinstantiate : Keeps Undestroyed wasmRuntimeDeinstantiate := by
  refine .update fun s h => ⟨?_, ?_⟩
  · simp [h.log]
  · exact (unlinkedBefore_finalize _ _).2 ⟨fun _ _ _ => h.log, h.unlinked⟩

theorem keeps_call {fails : Bool} : Keeps Undestroyed (call fails) := .call fun _ h => h

theorem keeps_guest {alive : List Obj} {fails : Bool} : Keeps Undestroyed (guest alive fails) :=
  .bind (keeps_update fun _ => rfl) fun _ => keeps_call

theorem keeps_setContext {f : Context → Context} : Keeps Undestroyed (setContext f) :=
  .state_bind fun _ _ => .bind (.deref _) fun _ => keeps_update fun _ => rfl

theorem note_instantiate {s : Host} (h : Undestroyed s) : Undestroyed (note .instantiate s) :=
  ⟨by simp [note, h.log], h.unlinked⟩

theorem note_createExecEnv {s : Host} (h : Undestroyed s) : Undestroyed (note .createExecEnv s) :=
  ⟨by simp [note, h.log], h.unlinked⟩

theorem connect (inp : RequestInputs) : Keeps Undestroyed (connect inp) :=
  .bind keeps_call fun _ => .bind keeps_call fun _ => .bind keeps_call fun _ =>
    .bind keeps_call fun _ => keeps_call

theorem load (inp : RequestInputs) : Keeps Undestroyed (load inp) := by
  have hinst : Keeps Undestroyed (rstModuleInstantiate inp) := by
    refine .bind (.call fun _ => note_instantiate) fun _ => ?_
    split
    · exact .bind deinstantiate fun _ => keeps_call
    · exact .update fun _ => note_createExecEnv
  exact .bind keeps_call fun _ => .bind hinst fun _ => keeps_update fun _ => rfl

theorem run (inp : RequestInputs) : Keeps Undestroyed (run inp) := by
  have hqueries : Keeps Undestroyed (rstInitInstanceContext inp) :=
    .bind keeps_guest fun _ => keeps_setContext
  have hjsonb : Keeps Undestroyed (rstInitContextForJsonb inp) :=
    .bind keeps_call fun _ => keeps_setContext
  exact .bind (keeps_update fun _ => rfl) fun _ => .bind keeps_call fun _ =>
    .bind keeps_setContext fun _ => .bind keeps_call fun _ => .bind keeps_call fun _ =>
      .bind hqueries fun _ => .bind hjsonb fun _ => .bind keeps_call fun _ => keeps_guest

/-- In the cleanup of a request the objects are finalized first. -/
theorem cleanup (h : Undestroyed s) : wp cleanup (fun _ s => UnlinkedBefore s.log) s := by
  have hfree : Keeps Undestroyed rstFreeInstanceContext :=
    .state_bind fun _ _ => .bind (.deref _) fun _ => .bind (.deref _) fun _ =>
      .update fun _ h => ⟨by simp [note, h.log], h.unlinked⟩
  have hdestroy : Keeps (fun s => UnlinkedBefore s.log) (update (note .destroyExecEnv)) :=
    .update fun _ h => h
  rw [Teardown.cleanup, wp_bind, wp_state, andThen_returned]
  split
  · rw [← Code.bind_assoc, wp_bind]
    refine wp_mono ((deinstantiate.bind fun _ => hfree) s h) fun e s h => ?_
    cases e with
    | returned _ => exact hdestroy s h.unlinked
    | raised | crashed => exact h.unlinked
  · exact h.unlinked

end Undestroyed

/-- In the other two places the objects alive at the end are finalized last. -/
theorem destroyThenDeinstantiate_ends (hi : s.moduleInst = true) (he : s.execEnv = true)
    (h : Undestroyed s) : wp destroyThenDeinstantiate (fun e s' => e = .returned () ∧
      (UnlinkedBefore s'.log ↔ ∀ o ∈ s.objects, o.ref = none)) s := by
  simp only [destroyThenDeinstantiate, wasmRuntimeDeinstantiate, hi, he, if_true, wp_bind, wp_state,
    wp_update, andThen_returned, note, true_and, UnlinkedBefore, unlinkedBefore_finalize]
  rw [and_iff_left h.unlinked]
  refine forall₂_congr fun o _ => ?_
  simp

/-- Without objects nothing can be finalized too late. -/
theorem destroyThenDeinstantiate_bare (h : Undestroyed s) (ho : s.objects = []) :
    wp destroyThenDeinstantiate (fun e s' => e = .returned () ∧ UnlinkedBefore s'.log) s := by
  obtain ⟨inst, env, data, objects, log⟩ := s
  cases ho
  cases inst <;> cases env <;>
    simp [destroyThenDeinstantiate, wasmRuntimeDeinstantiate, note, UnlinkedBefore] <;>
    exact h.unlinked

/-- How the try block of one of the two places ends: before guest code runs, or with the objects that
    it has left alive. -/
structure Exits (alive : List Obj) (runs : Prop) (e : Ending Unit) (s : Host) : Prop where
  left : e ≠ .crashed
  log : Undestroyed s
  objects : (¬ runs ∧ s.objects = []) ∨
    (runs ∧ s.moduleInst = true ∧ s.execEnv = true ∧ s.objects = alive)

theorem destroyThenDeinstantiate_iff {alive : List Obj} {runs : Prop} {e : Ending Unit}
    (h : Exits alive runs e s) : wp destroyThenDeinstantiate (fun e s' => e = .returned () ∧
      (UnlinkedBefore s'.log ↔ (runs → ∀ o ∈ alive, o.ref = none))) s := by
  rcases h.objects with ⟨hr, ho⟩ | ⟨hr, hi, he, ho⟩
  · exact wp_mono (destroyThenDeinstantiate_bare h.log ho) fun e s' h =>
      ⟨h.1, iff_of_true h.2 fun h => absurd h hr⟩
  · refine wp_mono (destroyThenDeinstantiate_ends hi he h.log) fun e s' h => ⟨h.1, ?_⟩
    rw [h.2, ho]
    exact ⟨fun h _ => h, fun h => h hr⟩

/-- **Taken down in this order**, an instance whose guest code has run must leave no object with a local
    reference. -/
theorem pgFinally_destroy_iff {alive : List Obj} {runs : Prop} {body : Code Host Unit}
    (hbody : wp body (Exits alive runs) {}) :
    wp (pgFinally body fun _ => destroyThenDeinstantiate) (fun _ s => UnlinkedBefore s.log) {} ↔
      (runs → ∀ o ∈ alive, o.ref = none) := by
  rw [wp_pgFinally]
  refine wp_iff hbody fun e s h => ?_
  have hend := destroyThenDeinstantiate_iff h
  cases e with
  | returned _ => exact wp_iff hend fun _ _ h => h.2
  | raised => exact wp_iff hend fun _ _ h => h.2
  | crashed => exact absurd rfl h.left

/-- `compile_queries` gets as far as to call `get_queries`. -/
def CompileInputs.Runs (inp : CompileInputs) : Prop :=
  inp.fails .signature = false ∧ inp.noQueries = false ∧ inp.fails .tooManyQueries = false ∧
    inp.fails .instantiate = false ∧ inp.fails .createExecEnv = false

/-- `run_wasm_with` gets as far as to call `fn`. -/
def RunInputs.Runs (inp : RunInputs) : Prop :=
  inp.fails .initWamr = false ∧ inp.fails .readWasmFile = false ∧
    (inp.useAot && inp.fails .compileAot) = false ∧ inp.fails .loadWasmModule = false ∧
    inp.fails .instantiate = false ∧ inp.fails .createExecEnv = false

theorem Exits.early {alive : List Obj} {runs : Prop} (hr : ¬ runs) (hs : Undestroyed s)
    (ho : s.objects = []) : Exits alive runs .raised s := ⟨nofun, hs, .inl ⟨hr, ho⟩⟩

theorem undestroyed_init : Undestroyed {} := ⟨by simp, trivial⟩

/-- Once the guest code has run, an exit finds the objects that it has left alive. -/
theorem Exits.ran {alive : List Obj} {runs : Prop} {e : Ending Unit} (hr : runs)
    (hs : Undestroyed s) (hi : s.moduleInst = true) (he : s.execEnv = true) (hne : e ≠ .crashed) :
    Exits alive runs e { s with objects := alive } :=
  ⟨hne, ⟨hs.log, hs.unlinked⟩, .inr ⟨hr, hi, he, rfl⟩⟩

/-- The state in which `get_queries` or `fn` is called. -/
def Host.running : Host :=
  { moduleInst := true, execEnv := true, log := [.createExecEnv, .instantiate] }

theorem undestroyed_running : Undestroyed .running := ⟨by simp [Host.running], trivial⟩

theorem undestroyed_instantiated : Undestroyed (note .instantiate { moduleInst := true }) :=
  .note_instantiate ⟨by simp, trivial⟩

theorem compileBody_exits (inp : CompileInputs) : wp (compileBody inp) (Exits inp.alive
    (inp.fails .instantiate = false ∧ inp.fails .createExecEnv = false)) {} := by
  rw [compileBody, wp_bind, wp_call]
  refine ⟨fun h => .early (by simp [h]) undestroyed_init rfl, fun h1 => ?_⟩
  rw [andThen_returned, wp_bind, wp_call]
  refine ⟨fun h => .early (by simp [h]) undestroyed_instantiated rfl, fun h2 => ?_⟩
  have hruns : inp.fails .instantiate = false ∧ inp.fails .createExecEnv = false := ⟨h1, h2⟩
  have hexit : ∀ {e}, e ≠ .crashed → Exits inp.alive _ e { Host.running with objects := inp.alive } :=
    .ran hruns undestroyed_running rfl rfl
  rw [andThen_returned, wp_bind, wp_guest]
  split
  · exact hexit nofun
  rw [andThen_returned, wp_bind, wp_call]
  refine ⟨fun _ => hexit nofun, fun _ => ?_⟩
  rw [andThen_returned, wp_call]
  exact ⟨fun _ => hexit nofun, fun _ => hexit nofun⟩

theorem runBody_exits (inp : RunInputs) : wp (runBody inp) (Exits inp.alive inp.Runs) {} := by
  rw [runBody, wp_bind, wp_call]
  refine ⟨fun h => .early (by simp [RunInputs.Runs, h]) undestroyed_init rfl, fun h1 => ?_⟩
  rw [andThen_returned, wp_bind, wp_call]
  refine ⟨fun h => .early (by simp [RunInputs.Runs, h]) undestroyed_init rfl, fun h2 => ?_⟩
  rw [andThen_returned, wp_bind, wp_call]
  refine ⟨fun h => .early (fun hr => by simp [hr.2.2.1] at h) undestroyed_init rfl, fun h3 => ?_⟩
  rw [andThen_returned, wp_bind, wp_call]
  refine ⟨fun h => .early (by simp [RunInputs.Runs, h]) undestroyed_init rfl, fun h4 => ?_⟩
  rw [andThen_returned, wp_bind, wp_call]
  refine ⟨fun h => .early (by simp [RunInputs.Runs, h]) undestroyed_init rfl, fun h5 => ?_⟩
  rw [andThen_returned, wp_bind, wp_call]
  refine ⟨fun h => .early (by simp [RunInputs.Runs, h]) undestroyed_instantiated rfl, fun h6 => ?_⟩
  have hexit : ∀ {e}, e ≠ .crashed → Exits inp.alive inp.Runs e
      { Host.running with objects := inp.alive } :=
    .ran ⟨h1, h2, h3, h4, h5, h6⟩ undestroyed_running rfl rfl
  rw [andThen_returned, wp_guest]
  split
  · exact hexit nofun
  · exact hexit nofun

/-- The three places, with what they meet. -/
inductive Place where
  | onReadable (inp : RequestInputs)
  | compileQueries (inp : CompileInputs)
  | runWasmWith (inp : RunInputs)

def Place.code : Place → Code Host Unit
  | .onReadable inp => Teardown.onReadable inp
  | .compileQueries inp => Teardown.compileQueries inp
  | .runWasmWith inp => Teardown.runWasmWith inp

/-- Where the `exec_env` is destroyed first, no object with a local reference is left. -/
def Place.LeavesNoReference : Place → Prop
  | .onReadable _ => True
  | .compileQueries inp => inp.Runs → ∀ o ∈ inp.alive, o.ref = none
  | .runWasmWith inp => inp.Runs → ∀ o ∈ inp.alive, o.ref = none

theorem onReadable_unlinkedBefore (inp : RequestInputs) :
    wp (onReadable inp) (fun _ s => UnlinkedBefore s.log) {} := by
  refine wp_pgFinally_of_keeps (I := Undestroyed) ?_ (fun _ _ h => h.cleanup) (fun _ h => h.unlinked)
    undestroyed_init
  exact (Undestroyed.connect inp).bind fun _ => (Undestroyed.load inp).bind fun _ => .run inp

theorem compileQueries_unlinkedBefore_iff (inp : CompileInputs) :
    wp (compileQueries inp) (fun _ s => UnlinkedBefore s.log) {} ↔
      (inp.Runs → ∀ o ∈ inp.alive, o.ref = none) := by
  by_cases h1 : inp.fails .signature = true
  · have hno : ¬ inp.Runs := by simp [CompileInputs.Runs, h1]
    simp [compileQueries, h1, hno, UnlinkedBefore]
  by_cases h2 : inp.noQueries = true
  · have hno : ¬ inp.Runs := by simp [CompileInputs.Runs, h2]
    simp [compileQueries, h1, h2, hno, UnlinkedBefore]
  by_cases h3 : inp.fails .tooManyQueries = true
  · have hno : ¬ inp.Runs := by simp [CompileInputs.Runs, h3]
    simp [compileQueries, h1, h2, h3, hno, UnlinkedBefore]
  have hruns : inp.Runs ↔ inp.fails .instantiate = false ∧ inp.fails .createExecEnv = false := by
    simp [CompileInputs.Runs, h1, h2, h3]
  have hcode : wp (compileQueries inp) (fun _ s => UnlinkedBefore s.log) {} ↔
      wp (do pgFinally (compileBody inp) fun _ => destroyThenDeinstantiate
             call (inp.fails .constructArray)) (fun _ s => UnlinkedBefore s.log) {} := by
    simp [compileQueries, h1, h2, h3]
  rw [hcode, wp_bind_call fun _ => Iff.rfl, pgFinally_destroy_iff (compileBody_exits inp), hruns]

/-- **Finalizers run while their `exec_env` exists** in every request; in the other two places exactly
    if the guest code, where it runs, leaves no object with a local reference. -/
theorem finalized_before_destroyed_iff (p : Place) :
    wp p.code (fun _ s => UnlinkedBefore s.log) {} ↔ p.LeavesNoReference := by
  cases p with
  | onReadable inp => exact iff_of_true (onReadable_unlinkedBefore inp) trivial
  | compileQueries inp => exact compileQueries_unlinkedBefore_iff inp
  | runWasmWith inp => exact pgFinally_destroy_iff (runBody_exits inp)

/-- `get_queries` makes a text from a JSON value, and the text is alive when it returns. -/
def textLeft : CompileInputs where
  noQueries := false
  fails _ := false
  alive := [{ mem := 1, body := .datum textOid 0, ref := some 0 }]

theorem unlinked_after_destroyed :
    ¬ wp (compileQueries textLeft) (fun _ s => UnlinkedBefore s.log) {} := by
  rw [compileQueries_unlinkedBefore_iff]
  intro h
  have := h (by simp [CompileInputs.Runs, textLeft]) _ List.mem_cons_self
  cases this

end Rustica.Teardown
