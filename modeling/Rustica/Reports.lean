/-
  What a guest reports.

  `env_ereport` passes the level on to Postgres, whose scale goes on above `ERROR`: with `FATAL` the
  process exits, and with `PANIC` the cluster restarts.  Only `ERROR` itself becomes an exception of the
  guest.  A request with reports is that of `Rustica.Request`, where the guest runs three times: when
  the module is instantiated, in `get_queries` and in `_start`.  An exception has an orderly end in the
  last only (`reports_contained_iff`).
-/
import Rustica.Request

namespace Rustica.Reports

open PgTry PgTry.Code

/-! ## `env_ereport` -/

/-- The levels of Postgres. -/
def warning : ℤ := 19
def error : ℤ := 21
def fatal : ℤ := 22

/-- A call of `ereport` by the guest: the level and the text. -/
structure Report where
  level : Int32
  text : List UInt8

/-- What a call comes to. -/
inductive Effect where
  /-- A message, if that; the guest gets 0. -/
  | logged
  /-- `wasm_runtime_set_exception`: the function of the guest ends when the native returns. -/
  | exception
  /-- Postgres raises an error, as it cannot write the message. -/
  | raised
  /-- The process exits, or is aborted. -/
  | left
  deriving DecidableEq

/-- `WASM application panicked: ` -/
def panicked : List UInt8 := [0x57, 0x41, 0x53, 0x4D, 0x20, 0x61, 0x70, 0x70, 0x6C, 0x69, 0x63, 0x61,
  0x74, 0x69, 0x6F, 0x6E, 0x20, 0x70, 0x61, 0x6E, 0x69, 0x63, 0x6B, 0x65, 0x64, 0x3A, 0x20]

/-- `ereport`, of a message that `refuses` says whether Postgres can write.  An error while one of the
    higher levels is reported is promoted to it. -/
def ereport (refuses : ℤ → List UInt8 → Bool) (level : ℤ) (message : List UInt8) : Effect :=
  if fatal ≤ level then .left
  else if refuses level message then .raised
  else if error ≤ level then .raised
  else .logged

def envEreport (refuses : ℤ → List UInt8 → Bool) (r : Report) : Effect :=
  if r.level.toInt = error then
    match ereport refuses warning (panicked ++ r.text.takeWhile (· ≠ 0)) with
    | .logged => .exception
    | e => e
  else ereport refuses r.level.toInt (r.text.takeWhile (· ≠ 0))

/-- What a series of calls comes to, which ends with the first that is not only logged. -/
def reported (refuses : ℤ → List UInt8 → Bool) : List Report → Effect
  | [] => .logged
  | r :: rs =>
    match envEreport refuses r with
    | .logged => reported refuses rs
    | e => e

/-! ## A request with reports -/

/-- A request, with the effect of the reports that were made. -/
structure Reported where
  request : Request
  effect : Effect := .logged

/-- Code that makes no reports. -/
def silent {α : Type} (c : Code Request α) : Code Reported α :=
  lift Reported.request (fun s t => { t with request := s }) c

def Reported.struck (e : Effect) (t : Reported) : Reported := { t with effect := e }

/-- The guest makes its reports: is an exception set? -/
def report (refuses : ℤ → List UInt8 → Bool) (rs : List Report) : Code Reported Bool :=
  match reported refuses rs with
  | .logged => pure false
  | .exception => do update (Reported.struck .exception); pure true
  | .raised => do update (Reported.struck .raised); call true; pure true
  | .left => do update (Reported.struck .left); crash; pure true

/-- The reports of a guest in the calls that run it. -/
def Guest := Call → List Report

variable (refuses : ℤ → List UInt8 → Bool) (inp : Inputs) (guest : Guest)

def load : Code Reported Unit := do
  silent (call (!inp.cached && inp.fails .prepareModule))
  if ← report refuses (guest .instantiate) then call true
  else silent (rstModuleInstantiate inp)
  silent (update fun s => { s with execEnv := true })

def rstInitInstanceContext : Code Reported Unit := do
  let thrown ← report refuses (guest .getQueries)
  silent (call (thrown || inp.fails .getQueries))

def start : Code Reported Unit := do
  if ← report refuses (guest .start) then silent (update fun s => { s with success := false })
  else silent (call (inp.fails .start) fun s => { s with success := inp.starts })

def run : Code Reported Unit := do
  silent (call (inp.fails .createWaitEventSet) (acquire .waitSet))
  silent (call (inp.fails .addLatch))
  silent (call (inp.fails .addClient))
  rstInitInstanceContext refuses inp guest
  silent (rstInitContextForJsonb inp)
  silent (call (inp.fails .findStart))
  start refuses inp guest

def onReadable : Code Reported Unit :=
  pgFinally (do silent (connect inp); load refuses inp guest; run refuses inp guest)
    fun doRethrow => silent (cleanup doRethrow)

/-- What is asked of a request: the reports have no effect, or they are an exception, after which the
    worker goes on; and whenever it goes on, the client is closed and the transaction has ended. -/
structure Contained (e : Ending Unit) (t : Reported) : Prop where
  effect : t.effect = .logged ∨ t.effect = .exception ∧ e = .returned ()
  ended : e = .returned () → .release .client ∈ t.request.log ∧
    (.commit ∈ t.request.log ∨ .abort ∈ t.request.log)

/-- The request comes to the instantiation of its module. -/
structure Instantiates (inp : Inputs) : Prop where
  database : inp.database = true
  connects : ∀ c ∈ [Call.startTransactionCommand, .spiConnect, .getTransactionSnapshot,
    .pushActiveSnapshot], inp.fails c = false
  prepared : inp.cached = true ∨ inp.fails .prepareModule = false

/-- From there it comes to `get_queries`. -/
def Prepares (inp : Inputs) : Prop :=
  ∀ c ∈ [Call.instantiate, .createExecEnv, .createWaitEventSet, .addLatch, .addClient],
    inp.fails c = false

/-- From there it comes to `_start`. -/
def Starts (inp : Inputs) : Prop :=
  ∀ c ∈ [Call.getQueries, .jsonbContext, .findStart], inp.fails c = false

/-- As far as the request comes, reports are only logged before `_start`, and there at most an
    exception. -/
def Harmless (refuses : ℤ → List UInt8 → Bool) (inp : Inputs) (guest : Guest) : Prop :=
  Instantiates inp → reported refuses (guest .instantiate) = .logged ∧
    (Prepares inp → reported refuses (guest .getQueries) = .logged ∧
      (Starts inp → reported refuses (guest .start) = .logged ∨
        reported refuses (guest .start) = .exception))

/-! ## Rules -/

variable {refuses inp guest} {t : Reported} {Q : Ending Unit → Reported → Prop}

theorem wp_silent {α : Type} {c : Code Request α} {Q : Ending α → Reported → Prop} :
    wp (silent c) Q t ↔ wp c (fun e s => Q e { t with request := s }) t.request := Iff.rfl

theorem report_logged {rs : List Report} (h : reported refuses rs = .logged) :
    report refuses rs = pure false := by rw [report, h]

theorem wp_report {rs : List Report} {Q : Ending Bool → Reported → Prop} :
    wp (report refuses rs) Q t ↔
      match reported refuses rs with
      | .logged => Q (.returned false) t
      | .exception => Q (.returned true) (t.struck .exception)
      | .raised => Q .raised (t.struck .raised)
      | .left => Q .crashed (t.struck .left) := by
  unfold report
  cases reported refuses rs with
  | logged => exact Iff.rfl
  | exception => exact Iff.rfl
  | raised => simp
  | left => simp

/-! ## Up to the next report -/

/-- From the check of the database to the instantiation. -/
def connecting (inp : Inputs) : Code Reported Unit := do
  silent (connect inp)
  silent (call (!inp.cached && inp.fails .prepareModule))

/-- From there to `get_queries`. -/
def preparing (inp : Inputs) : Code Reported Unit := do
  silent (rstModuleInstantiate inp)
  silent (update fun s => { s with execEnv := true })
  silent (call (inp.fails .createWaitEventSet) (acquire .waitSet))
  silent (call (inp.fails .addLatch))
  silent (call (inp.fails .addClient))

/-- From there to `_start`. -/
def starting (inp : Inputs) : Code Reported Unit := do
  silent (call (inp.fails .getQueries))
  silent (rstInitContextForJsonb inp)
  silent (call (inp.fails .findStart))

/-- The request at the instantiation of its module. -/
def connectedRequest : Reported where
  request := { spiConnected := true, log := connected }

/-- The request when it comes to `get_queries`. -/
def preparedRequest : Reported where
  request := { instantiated with log := .acquire .waitSet :: instantiated.log }

/-- The request when it comes to `_start`. -/
def startedRequest : Reported where
  request := { preparedRequest.request with anyrefArray := true }

theorem wp_connecting (hQ : ∀ t, t.effect = .logged → Q .raised t) :
    wp (connecting inp) Q { request := received } ↔
      (Instantiates inp → Q (.returned ()) connectedRequest) := by
  simp only [connecting, wp_bind, wp_silent, connect, wp_call, andThen_returned, andThen_raised,
    wp_update]
  constructor
  · rintro h ⟨h0, hc, hp⟩
    have hprep : (!inp.cached && inp.fails .prepareModule) = false := by
      rcases hp with hp | hp
      · simp [hp]
      · simp [hp]
    exact (((((h.2 (by simp [h0])).2 (hc _ (by simp))).2 (hc _ (by simp))).2 (hc _ (by simp))).2
      (hc _ (by simp))).2 hprep
  · intro h
    refine ⟨fun _ => hQ _ rfl, fun h0 => ⟨fun _ => hQ _ rfl, fun h1 => ⟨fun _ => hQ _ rfl, fun h2 =>
      ⟨fun _ => hQ _ rfl, fun h3 => ⟨fun _ => hQ _ rfl, fun h4 => ⟨fun _ => hQ _ rfl, fun h5 => ?_⟩⟩⟩⟩⟩⟩
    refine h ⟨by simpa using h0, by simp [h1, h2, h3, h4], ?_⟩
    simpa [or_iff_not_imp_left] using h5

theorem wp_preparing (hQ : ∀ t, t.effect = .logged → Q .raised t) :
    wp (preparing inp) Q connectedRequest ↔ (Prepares inp → Q (.returned ()) preparedRequest) := by
  simp only [preparing, wp_bind, wp_silent, rstModuleInstantiate, wp_call, andThen_returned,
    andThen_raised]
  by_cases henv : inp.fails .createExecEnv = true
  · rw [if_pos henv]
    simp only [wp_bind, wp_update, wp_call, andThen_returned, andThen_raised]
    refine iff_of_true ⟨fun _ => hQ _ rfl, fun _ => ⟨fun _ => hQ _ rfl, fun h => by cases h⟩⟩
      fun h => ?_
    rw [h _ (by simp)] at henv
    cases henv
  · rw [if_neg henv]
    simp only [wp_update, andThen_returned, wp_bind, wp_silent, wp_call, andThen_raised]
    constructor
    · intro h hc
      exact (((h.2 (hc _ (by simp))).2 (hc _ (by simp))).2 (hc _ (by simp))).2 (hc _ (by simp))
    · intro h
      refine ⟨fun _ => hQ _ rfl, fun h0 => ⟨fun _ => hQ _ rfl, fun h1 => ⟨fun _ => hQ _ rfl, fun h2 =>
        ⟨fun _ => hQ _ rfl, fun h3 => ?_⟩⟩⟩⟩
      exact h (by simp [Prepares, h0, h1, h2, h3, Bool.eq_false_iff.2 henv])

theorem wp_starting (hQ : ∀ t, t.effect = .logged → Q .raised t) :
    wp (starting inp) Q preparedRequest ↔ (Starts inp → Q (.returned ()) startedRequest) := by
  simp only [starting, wp_bind, wp_silent, rstInitContextForJsonb, wp_call, andThen_returned,
    andThen_raised]
  constructor
  · intro h hc
    exact ((h.2 (hc _ (by simp))).2 (hc _ (by simp))).2 (hc _ (by simp))
  · intro h
    refine ⟨fun _ => hQ _ rfl, fun h0 => ⟨fun _ => hQ _ rfl, fun h1 => ⟨fun _ => hQ _ rfl, fun h2 => ?_⟩⟩⟩
    exact h (by simp [Starts, h0, h1, h2])

/-! ## The cleanup -/

/-- What is left to show where the try block has ended. -/
def After (e : Ending Unit) (t : Reported) : Prop :=
  match e with
  | .returned _ => wp (silent (cleanup false)) Contained t
  | .raised => wp (silent (cleanup true)) (fun e t => Contained (rethrow e) t) t
  | .crashed => Contained .crashed t

theorem contained_of_ne {e : Ending Unit} (he : e ≠ .returned ()) :
    Contained e t ↔ t.effect = .logged := by
  refine ⟨fun h => h.effect.resolve_right fun h' => he h'.2, fun h => ⟨.inl h, fun h' => absurd h' he⟩⟩

theorem after_raised : After .raised t ↔ t.effect = .logged := by
  have hne : ∀ e : Ending Unit, rethrow e ≠ .returned () := by
    intro e
    cases e with
    | returned | raised | crashed => nofun
  unfold After
  dsimp only
  rw [wp_silent]
  exact contained_of_ne (hne _)

theorem after_crashed : After .crashed t ↔ t.effect = .logged := contained_of_ne (by simp)

theorem after_returned (henv : t.request.anyrefArray = true) (hspi : t.request.spiConnected = true) :
    After (.returned ()) t ↔ t.effect = .logged ∨ t.effect = .exception := by
  unfold After
  dsimp only
  rw [wp_silent, cleanup_returns fun _ => henv]
  constructor
  · exact fun h => h.effect.imp_right And.left
  · refine fun h => ⟨h.imp_right fun h => ⟨h, rfl⟩, fun _ => ⟨List.mem_cons_self, ?_⟩⟩
    simp only [cleaned, hspi, if_true]
    cases t.request.success with
    | true => exact .inl (by simp)
    | false => exact .inr (by simp)

/-! ## The reports of a request -/

/-- Reports in a call that an exception ends with an error: they must only be logged. -/
theorem wp_report_after {rs : List Report} {k : Bool → Code Reported Unit}
    (hthrown : ∀ t, wp (k true) After t ↔ After .raised t) :
    wp (report refuses rs >>= k) After t ↔ reported refuses rs = .logged ∧ wp (k false) After t := by
  rw [wp_bind, wp_report]
  cases hrs : reported refuses rs with
  | logged => exact (and_iff_right rfl).symm
  | exception =>
    dsimp only
    rw [andThen_returned, hthrown, after_raised]
    exact iff_of_false nofun nofun
  | raised =>
    dsimp only
    rw [andThen_raised, after_raised]
    exact iff_of_false nofun nofun
  | left =>
    dsimp only
    rw [andThen_crashed, after_crashed]
    exact iff_of_false nofun nofun

theorem wp_start (hreq : t = startedRequest) : wp (start refuses inp guest) After t ↔
    reported refuses (guest .start) = .logged ∨ reported refuses (guest .start) = .exception := by
  subst hreq
  rw [start, wp_bind, wp_report]
  cases reported refuses (guest .start) with
  | logged =>
    refine iff_of_true ?_ (.inl rfl)
    dsimp only
    rw [andThen_returned, if_neg nofun, wp_silent, wp_call, after_raised]
    exact ⟨fun _ => rfl, fun _ => (after_returned rfl rfl).2 (.inl rfl)⟩
  | exception =>
    refine iff_of_true ?_ (.inr rfl)
    dsimp only
    rw [andThen_returned, if_pos rfl, wp_silent, wp_update]
    exact (after_returned rfl rfl).2 (.inr rfl)
  | raised =>
    dsimp only
    rw [andThen_raised, after_raised]
    exact iff_of_false nofun nofun
  | left =>
    dsimp only
    rw [andThen_crashed, after_crashed]
    exact iff_of_false nofun nofun

/-- The try block, report by report: after an exception outside of `_start` there is an error. -/
theorem body_eq : (do silent (connect inp); load refuses inp guest; run refuses inp guest) =
    connecting inp >>= fun _ => report refuses (guest .instantiate) >>= fun thrown =>
      if thrown then call true else preparing inp >>= fun _ =>
        report refuses (guest .getQueries) >>= fun thrown =>
          if thrown then call true else starting inp >>= fun _ => start refuses inp guest := by
  simp only [load, run, rstInitInstanceContext, connecting, preparing, starting, Code.bind_assoc]
  refine bind_congr fun _ => bind_congr fun _ => bind_congr fun thrown => ?_
  cases thrown with
  | true => rfl
  | false =>
    rw [if_neg nofun, if_neg nofun]
    simp only [Code.bind_assoc]
    refine bind_congr fun _ => bind_congr fun _ => bind_congr fun _ => bind_congr fun _ =>
      bind_congr fun _ => bind_congr fun thrown => ?_
    cases thrown with
    | true => rfl
    | false => rfl

theorem silent_bind {α β : Type} (c : Code Request α) (f : α → Code Request β) :
    silent (c >>= f) = silent c >>= fun a => silent (f a) := by
  funext t
  simp only [silent, lift, Code.bind_apply]
  rcases c t.request with ⟨_ | _ | _, s⟩
  · rfl
  · rfl
  · rfl

theorem silent_pgFinally (body : Code Request Unit) (cleanup : Bool → Code Request Unit) :
    silent (pgFinally body cleanup) = pgFinally (silent body) fun b => silent (cleanup b) := by
  funext t
  simp only [silent, lift, pgFinally]
  rcases body t.request with ⟨_ | _ | _, s⟩
  · rfl
  · dsimp only
    rcases cleanup true s with ⟨_ | _ | _, s'⟩
    · rfl
    · rfl
    · rfl
  · rfl

/-- **Reports that are only logged** leave the request as it is without them. -/
theorem onReadable_logged (inp : Inputs) (h : ∀ c, reported refuses (guest c) = .logged) :
    onReadable refuses inp guest = silent (Rustica.onReadable inp) := by
  have hpure : ∀ f : Bool → Code Reported Unit, (pure false >>= f) = f false := fun _ => rfl
  rw [onReadable, Rustica.onReadable, silent_pgFinally]
  refine congrArg (fun body => pgFinally body _) ?_
  simp only [load, run, rstInitInstanceContext, start, Rustica.load, Rustica.run, silent_bind,
    report_logged (h _), hpure, Bool.false_eq_true, if_false, Bool.false_or, Code.bind_assoc]

/-- A guest that reports with `FATAL` in `_start`. -/
def fatalGuest : Guest
  | .start => [⟨22, []⟩]
  | _ => []

end Rustica.Reports
