/-
  One request (`on_readable` of `worker.c`): what it acquires and releases.

  The calls of the try block run one after the other, each of which can raise an error, and the
  cleanup decides by the variables `spi_connected`, `exec_env` and `success` what to release.  The
  variables are read in the cleanup as they were last written.

  A call that raises has acquired nothing.  Activity reports, log messages and calls that only look
  something up are left out.  The wait set lives in a memory context, but its kernel descriptor is
  closed by `FreeWaitEventSet` only.
-/
import Rustica.Lib.PgTry

namespace Rustica

open PgTry PgTry.Code

inductive Resource where
  | client | transaction | spi | snapshot | moduleInst | execEnv | waitSet
  deriving DecidableEq

instance : Fintype Resource :=
  ⟨{.client, .transaction, .spi, .snapshot, .moduleInst, .execEnv, .waitSet}, by rintro ⟨⟩ <;> decide⟩

/-- A transaction is released by a commit or an abort. -/
inductive Entry where
  | acquire (r : Resource)
  | release (r : Resource)
  | commit
  | abort
  deriving DecidableEq

def Entry.releases : Entry → Option Resource
  | .release r => some r
  | .commit | .abort => some .transaction
  | .acquire _ => none

/-- The variables of `on_readable`, the field `anyref_array` of its context, and the record of what
    was acquired and released, the latest first. -/
structure Request where
  spiConnected : Bool := false
  execEnv : Bool := false
  success : Bool := false
  anyrefArray : Bool := false
  log : List Entry := []

/-- The calls that can raise an error. -/
inductive Call where
  | startTransactionCommand | spiConnect | getTransactionSnapshot | pushActiveSnapshot
  | prepareModule | instantiate | createExecEnv | createWaitEventSet | addLatch | addClient
  | getQueries | jsonbContext | findStart | start
  deriving DecidableEq

/-- What a request meets.  `starts` says that `_start`, if it raises no error, returns instead of
    trapping; `fails .getQueries` includes that the module exports it. -/
structure Inputs where
  /-- `rustica.database` is configured -/
  database : Bool
  /-- `rst_lookup_module` finds the module -/
  cached : Bool
  starts : Bool
  fails : Call → Bool

def note (e : Entry) (s : Request) : Request := { s with log := e :: s.log }
def acquire (r : Resource) : Request → Request := note (.acquire r)
def release (r : Resource) : Request → Request := note (.release r)

variable (inp : Inputs)

/-- From the check of the database to `spi_connected`. -/
def connect : Code Request Unit := do
  call (!inp.database)
  call (inp.fails .startTransactionCommand) (acquire .transaction)
  call (inp.fails .spiConnect) (acquire .spi)
  call (inp.fails .getTransactionSnapshot)
  call (inp.fails .pushActiveSnapshot) (acquire .snapshot)
  update fun s => { s with spiConnected := true }

def rstModuleInstantiate : Code Request Unit := do
  call (inp.fails .instantiate) (acquire .moduleInst)
  if inp.fails .createExecEnv then do
    update (release .moduleInst)
    call true
  else update (acquire .execEnv)

/-- The module is looked up, loaded if need be, and instantiated. -/
def load : Code Request Unit := do
  call (!inp.cached && inp.fails .prepareModule)
  rstModuleInstantiate inp
  update fun s => { s with execEnv := true }

def rstInitContextForJsonb : Code Request Unit :=
  call (inp.fails .jsonbContext) fun s => { s with anyrefArray := true }

/-- From the creation of the wait set to the end of `_start`. -/
def run : Code Request Unit := do
  call (inp.fails .createWaitEventSet) (acquire .waitSet)
  call (inp.fails .addLatch)
  call (inp.fails .addClient)
  call (inp.fails .getQueries)
  rstInitContextForJsonb inp
  call (inp.fails .findStart)
  call (inp.fails .start) fun s => { s with success := inp.starts }

/-- `pfree(ctx->anyref_array->defined_type)`. -/
def rstFreeInstanceContext : Code Request Unit := do
  let s ← state
  if s.anyrefArray then pure () else crash

def cleanupInstance : Code Request Unit := do
  let s ← state
  if s.execEnv then do
    update (release .moduleInst)
    rstFreeInstanceContext
    update (release .execEnv)
  else pure ()

def cleanupTransaction (doRethrow : Bool) : Code Request Unit := do
  let s ← state
  if s.spiConnected then do
    update (release .spi)
    update (release .snapshot)
    if s.success && !doRethrow then update (note .commit) else update (note .abort)
  else pure ()

def cleanup (doRethrow : Bool) : Code Request Unit := do
  cleanupInstance
  cleanupTransaction doRethrow
  update (release .client)

def onReadable : Code Request Unit :=
  pgFinally (do connect inp; load inp; run inp) cleanup

/-- `recvmsg` has returned a client. -/
def received : Request := { log := [.acquire .client] }

/-- What is asked of the end of a request: the process lives, everything acquired is released
    exactly once, and the transaction is committed if and only if `_start` has succeeded and no error
    is raised. -/
structure Clean (e : Ending Unit) (s : Request) : Prop where
  left : e ≠ .crashed
  once : ∀ r, s.log.count (.acquire r) ≤ 1 ∧
    (s.log.filterMap Entry.releases).count r = s.log.count (.acquire r)
  commit : .commit ∈ s.log ↔ e = .returned () ∧ s.success = true

instance (e : Ending Unit) (s : Request) : Decidable (Clean e s) :=
  decidable_of_iff (e ≠ .crashed ∧ (∀ r, s.log.count (.acquire r) ≤ 1 ∧
      (s.log.filterMap Entry.releases).count r = s.log.count (.acquire r)) ∧
      (.commit ∈ s.log ↔ e = .returned () ∧ s.success = true))
    ⟨fun h => ⟨h.1, h.2.1, h.2.2⟩, fun h => ⟨h.left, h.once, h.commit⟩⟩

/-! ## Where the try block stops -/

variable {inp}

/-- The record once SPI is connected. -/
def connected : List Entry :=
  [.acquire .snapshot, .acquire .spi, .acquire .transaction, .acquire .client]

/-- The request once it has an `exec_env`. -/
def instantiated : Request where
  spiConnected := true
  execEnv := true
  log := .acquire .execEnv :: .acquire .moduleInst :: connected

/-- The request fails before the transaction has started. -/
def Inputs.Early (inp : Inputs) : Prop :=
  inp.database = false ∨ inp.fails .startTransactionCommand = true

/-- It fails between the start of the transaction and `spi_connected`. -/
def Inputs.Unflagged (inp : Inputs) : Prop :=
  ¬ inp.Early ∧ (inp.fails .spiConnect = true ∨ inp.fails .getTransactionSnapshot = true ∨
    inp.fails .pushActiveSnapshot = true)

/-- It fails while the module is loaded or instantiated. -/
def Inputs.Unloaded (inp : Inputs) : Prop :=
  ¬ inp.Early ∧ ¬ inp.Unflagged ∧ ((inp.cached = false ∧ inp.fails .prepareModule = true) ∨
    inp.fails .instantiate = true ∨ inp.fails .createExecEnv = true)

/-- How the try block ends. -/
inductive Stops (inp : Inputs) : Ending Unit → Request → Prop
  | early : inp.Early → Stops inp .raised received
  | unflagged {log} : inp.Unflagged → log = [.acquire .transaction, .acquire .client] ∨
      log = [.acquire .spi, .acquire .transaction, .acquire .client] →
      Stops inp .raised { log := log }
  | unloaded {log} : inp.Unloaded → log = connected ∨
      log = .release .moduleInst :: .acquire .moduleInst :: connected →
      Stops inp .raised { spiConnected := true, log := log }
  /-- an `exec_env`, but no `anyref_array` -/
  | bare {log} : ¬ inp.Early → ¬ inp.Unflagged → ¬ inp.Unloaded →
      Stops inp .raised { spiConnected := true, execEnv := true, log := log }
  | ran {e b} : ¬ inp.Early → ¬ inp.Unflagged → ¬ inp.Unloaded → e ≠ .crashed →
      Stops inp e { spiConnected := true, execEnv := true, anyrefArray := true, success := b,
                    log := .acquire .waitSet :: .acquire .execEnv :: .acquire .moduleInst ::
                      connected }

theorem connect_stops : wp (connect inp) (fun e s => e = .raised ∧ Stops inp e s ∨
    e = .returned () ∧ ¬ inp.Early ∧ ¬ inp.Unflagged ∧
      s = { spiConnected := true, log := connected }) received := by
  simp only [connect, wp_bind, wp_call, andThen_raised, andThen_returned, wp_update]
  refine ⟨fun h => .inl ⟨trivial, .early (.inl (by simpa using h))⟩, fun h0 => ?_⟩
  refine ⟨fun h => .inl ⟨trivial, .early (.inr h)⟩, fun h1 => ?_⟩
  have hE : ¬ inp.Early := by
    rintro (h | h) <;> simp_all
  refine ⟨fun h => .inl ⟨trivial, .unflagged ⟨hE, .inl h⟩ (.inl rfl)⟩, fun h2 => ?_⟩
  refine ⟨fun h => .inl ⟨trivial, .unflagged ⟨hE, .inr (.inl h)⟩ (.inr rfl)⟩, fun h3 => ?_⟩
  refine ⟨fun h => .inl ⟨trivial, .unflagged ⟨hE, .inr (.inr h)⟩ (.inr rfl)⟩, fun h4 => ?_⟩
  have hU : ¬ inp.Unflagged := by
    rintro ⟨-, h | h | h⟩ <;> simp_all
  exact .inr ⟨trivial, hE, hU, rfl⟩

theorem load_stops (hE : ¬ inp.Early) (hU : ¬ inp.Unflagged) :
    wp (load inp) (fun e s => e = .raised ∧ Stops inp e s ∨ e = .returned () ∧ ¬ inp.Unloaded ∧
      s = instantiated) { spiConnected := true, log := connected } := by
  simp only [load, rstModuleInstantiate, wp_bind, wp_call, andThen_raised, andThen_returned]
  refine ⟨fun h => .inl ⟨trivial, .unloaded ⟨hE, hU, .inl (by simpa using h)⟩ (.inl rfl)⟩, fun h0 => ?_⟩
  refine ⟨fun h => .inl ⟨trivial, .unloaded ⟨hE, hU, .inr (.inl h)⟩ (.inl rfl)⟩, fun h1 => ?_⟩
  split
  · rename_i h
    simp only [wp_bind, wp_call, andThen_raised, andThen_returned, wp_update]
    exact ⟨fun _ => .inl ⟨trivial, .unloaded ⟨hE, hU, .inr (.inr h)⟩ (.inr rfl)⟩,
      fun h' => by cases h'⟩
  · rename_i h2
    refine .inr ⟨rfl, ?_, rfl⟩
    rintro ⟨-, -, ⟨h, h'⟩ | h | h⟩ <;> simp_all

theorem run_stops (hE : ¬ inp.Early) (hU : ¬ inp.Unflagged) (hL : ¬ inp.Unloaded) :
    wp (run inp) (Stops inp) instantiated := by
  simp only [run, rstInitContextForJsonb, wp_bind, wp_call, andThen_raised, andThen_returned]
  refine ⟨fun _ => .bare hE hU hL, fun _ => ⟨fun _ => .bare hE hU hL, fun _ =>
    ⟨fun _ => .bare hE hU hL, fun _ => ⟨fun _ => .bare hE hU hL, fun _ =>
      ⟨fun _ => .bare hE hU hL, fun _ => ?_⟩⟩⟩⟩⟩
  have hraised : Ending.raised ≠ (.crashed : Ending Unit) := fun h => by cases h
  refine ⟨fun _ => .ran hE hU hL hraised, fun _ => ⟨fun _ => .ran hE hU hL hraised, fun _ => ?_⟩⟩
  exact .ran hE hU hL fun h => by cases h

/-- **Inversion of the try block.** -/
theorem body_stops : wp (do connect inp; load inp; run inp) (Stops inp) received := by
  rw [wp_bind]
  refine wp_mono connect_stops fun e s h => ?_
  rcases h with ⟨rfl, h⟩ | ⟨rfl, hE, hU, rfl⟩
  · exact h
  rw [andThen_returned, wp_bind]
  refine wp_mono (load_stops hE hU) fun e s h => ?_
  rcases h with ⟨rfl, h⟩ | ⟨rfl, hL, rfl⟩
  · exact h
  exact run_stops hE hU hL

/-! ## The cleanup -/

/-- The cleanup of a request that has an `exec_env`, but no `anyref_array`. -/
theorem cleanup_crashes {s : Request} {b : Bool} (h : s.execEnv = true)
    (h' : s.anyrefArray = false) {Q : Ending Unit → Request → Prop} :
    wp (cleanup b) Q s ↔ Q .crashed (release .moduleInst s) := by
  simp [cleanup, cleanupInstance, rstFreeInstanceContext, h, h', release, note]

/-- The record after the cleanup of any other request. -/
def cleaned (b : Bool) (s : Request) : List Entry :=
  .release .client ::
    (if s.spiConnected then
      [if s.success && !b then .commit else .abort, .release .snapshot, .release .spi] else []) ++
    (if s.execEnv then [.release .execEnv, .release .moduleInst] else []) ++ s.log

theorem cleanup_returns {s : Request} {b : Bool} (h : s.execEnv = true → s.anyrefArray = true)
    {Q : Ending Unit → Request → Prop} :
    wp (cleanup b) Q s ↔ Q (.returned ()) { s with log := cleaned b s } := by
  obtain ⟨spi, env, success, anyref, log⟩ := s
  simp only [cleanup, wp_bind]
  have hinst : ∀ Q, wp cleanupInstance Q ⟨spi, env, success, anyref, log⟩ ↔
      Q (.returned ()) ⟨spi, env, success, anyref,
        (if env then [.release .execEnv, .release .moduleInst] else []) ++ log⟩ := by
    intro Q
    cases env
    · simp [cleanupInstance]
    · have : anyref = true := h rfl
      simp [cleanupInstance, rstFreeInstanceContext, this, release, note]
  have htrans : ∀ Q log, wp (cleanupTransaction b) Q ⟨spi, env, success, anyref, log⟩ ↔
      Q (.returned ()) ⟨spi, env, success, anyref, (if spi then
        [if success && !b then .commit else .abort, .release .snapshot, .release .spi]
          else []) ++ log⟩ := by
    intro Q log
    cases spi
    · simp [cleanupTransaction]
    · cases success <;> cases b <;> simp [cleanupTransaction, release, note]
  rw [hinst, andThen_returned, wp_bind, htrans, andThen_returned, wp_update]
  simp [cleaned, release, note]

/-- **A request is cleaned up exactly if it fails before its transaction has started, or between
    `spi_connected` and the creation of its `exec_env`.** -/
theorem request_clean_iff (inp : Inputs) :
    wp (onReadable inp) Clean received ↔ inp.Early ∨ inp.Unloaded := by
  rw [onReadable, wp_pgFinally]
  refine wp_iff body_stops fun e s h => ?_
  cases h with
  | early h =>
    dsimp only
    rw [cleanup_returns (s := received) nofun]
    exact iff_of_true (by decide) (.inl h)
  | @unflagged log h hlog =>
    -- the transaction is left as it is
    dsimp only
    rw [cleanup_returns (s := { log := log }) nofun]
    refine iff_of_false (fun hc => ?_) fun h' => h'.elim h.1 fun h' => h'.2.1 h
    rcases hlog with rfl | rfl <;> exact absurd hc (by decide)
  | @unloaded log h hlog =>
    dsimp only
    rw [cleanup_returns (s := { spiConnected := true, log := log }) nofun]
    refine iff_of_true ?_ (.inr h)
    rcases hlog with rfl | rfl <;> decide
  | bare hE hU hL =>
    dsimp only
    rw [cleanup_crashes rfl rfl]
    exact iff_of_false (fun hc => hc.left rfl) (not_or.2 ⟨hE, hL⟩)
  | @ran e b hE hU hL he =>
    -- the wait set is not freed, whatever `_start` has done
    refine iff_of_false ?_ (not_or.2 ⟨hE, hL⟩)
    cases e with
    | returned =>
      dsimp only
      rw [cleanup_returns fun _ => rfl]
      intro hc
      have := (hc.once .waitSet).2
      revert this; cases b <;> decide
    | raised =>
      dsimp only
      rw [cleanup_returns fun _ => rfl]
      intro hc
      have := (hc.once .waitSet).2
      revert this; cases b <;> decide
    | crashed => exact absurd rfl he

/-- No error is raised and `_start` returns. -/
def plainRequest : Inputs := { database := true, cached := true, starts := true, fails := fun _ => false }

/-- Even then the wait set stays, with its kernel descriptor. -/
theorem plain_request_leaks : ¬ wp (onReadable plainRequest) Clean received ∧
    wp (onReadable plainRequest) (fun e s => e = .returned () ∧ .commit ∈ s.log ∧
      .acquire .waitSet ∈ s.log ∧ .release .waitSet ∉ s.log) received := by
  unfold wp
  decide

end Rustica
