/-
  The workers and their handles.

  `num_workers` is counted up in `on_frontend`, where a worker is registered, and down in
  `on_worker_died`, where the handles of the stopped ones are given back; the two assertions on the
  way rely on it being the number of handles.  The functions with `Asserted` in their names are the
  handlers of an assert-enabled build as far as these two assertions go: a failed one ends the run.
-/
import Rustica.Spawn

namespace Rustica

open Exec

variable {m m' : Master} {k : ℤ} {env : Env} {ev : WaitEvent} {c : Pgsocket} {events : Events}

/-- `Assert(p)`, and what follows it. -/
def asserted (p : Prop) [Decidable p] (m : Master) : Option Master := if p then some m else none

/-- With `Assert(handle != NULL)` after the search for a free handle. -/
def spawnAsserted (m : Master) (env : Env) : Option Master :=
  if m.idle.size = 0 ∧ (m.numWorkers : ℤ) < (m.maxWorkerProcesses : ℤ) - 2 then
    asserted (freeHandle m ≠ none) (spawnWorker m env)
  else some m

def onFrontendAsserted (m : Master) (env : Env) (events : Events) : Option Master :=
  if !events.readable then some m
  else if env.acceptClient = pgInvalidSocket then some m
  else
    let sock := env.acceptClient
    let r := dispatchIdle env sock m.idle.size (m.emit (.acceptClient sock))
    if r.1 then some r.2 else (spawnAsserted r.2 env).map (enqueue · sock)

/-- With `Assert(workers == num_workers)` where no death was found. -/
def onWorkerDiedAsserted (m : Master) (env : Env) : Option Master :=
  let workers := (onWorkerDied m env).registered
  if workers < m.numWorkers then some (onWorkerDied m env)
  else asserted (workers = m.numWorkers) (onWorkerDied m env)

def onLatchAsserted (m : Master) (env : Env) (events : Events) : Option Master :=
  if !events.latchSet then some m
  else if m.shutdownRequested then some { m with halted := true }
  else if m.workerDied then onWorkerDiedAsserted { m with workerDied := false } env
  else some m

def callHandlersAsserted (m : Master) (env : Env) (k : ℤ) (events : Events) : Option Master :=
  let m := if (m.sockets k).type = .ipc then onBackendConnect m env events else m
  (if (m.sockets k).type = .frontend then onFrontendAsserted m env events else some m).map fun m =>
    if (m.sockets k).type = .backend then onBackend m env k events else m

def handleEventAsserted (m : Master) (env : Env) (ev : WaitEvent) : Option Master :=
  (onLatchAsserted m env ev.events).bind fun m =>
    if m.halted then some m else callHandlersAsserted m env ev.userData ev.events

/-- The count is the number of handles, and within the limit: two of the processes that Postgres
    allows are not for workers. -/
structure Staffed (m : Master) : Prop where
  counted : Counted m
  le_max : (m.numWorkers : ℤ) ≤ max 0 ((m.maxWorkerProcesses : ℤ) - 2)

/-- Along the event at the head of the batch the search for a handle finds one, neither assertion
    fails, and the count is right between the latch part and the handler too. -/
def AssertsHold (m : Master) : Label → Prop
  | .handle env => ∀ ev evs, m.batch = ev :: evs →
      Staffed (onLatch { m with batch := evs } env ev.events) ∧
      handleEventAsserted { m with batch := evs } env ev =
        some (handleEvent { m with batch := evs } env ev)
  | _ => True

/-! ## The assertions -/

theorem spawnAsserted_eq (hm : Counted m) : spawnAsserted m env = some (spawnWorker m env) := by
  unfold spawnAsserted
  split
  · rename_i hg
    have hlt : m.registered < m.maxWorkerProcesses := by
      rw [← hm]; omega
    obtain ⟨i, hi, -, -⟩ := freeHandle_of_lt hlt
    exact if_pos (by simp [hi])
  · rw [spawnWorker, if_neg ‹_›]

theorem dispatchIdle_counted (hm : Counted m) :
    Counted (dispatchIdle env c m.idle.size (m.emit (.acceptClient c))).2 := by
  have hrule := dispatchIdle_rule (I := Counted) env c (fun _ h _ _ => h) (fun _ h _ _ _ => h)
    (m := m.emit (.acceptClient c)) rfl hm
  rcases hrule with ⟨-, h, -⟩ | ⟨-, m₁, h, -, -, he⟩
  · exact h
  · exact he ▸ h

theorem onFrontendAsserted_eq (hm : Counted m) :
    onFrontendAsserted m env events = some (onFrontend m env events) := by
  by_cases hr : events.readable = true
  swap
  · rw [onFrontend_idle (.inl (by simpa using hr))]
    simp [onFrontendAsserted, hr]
  by_cases hc : env.acceptClient = pgInvalidSocket
  · rw [onFrontend_idle (.inr hc)]
    simp [onFrontendAsserted, hc]
  rw [onFrontend_accept hr hc]
  simp only [onFrontendAsserted, hr, hc, Bool.not_true, Bool.false_eq_true, if_false,
    spawnAsserted_eq (dispatchIdle_counted hm), Option.map_some]
  exact (apply_ite some _ _ _).symm

theorem onWorkerDiedAsserted_eq (hm : Counted m) :
    onWorkerDiedAsserted m env = some (onWorkerDied m env) := by
  have hle := onWorkerDied_registered_le m env
  simp only [onWorkerDiedAsserted]
  split
  · rfl
  · exact if_pos (by rw [hm] at *; omega)

theorem onLatchAsserted_eq (hm : Counted m) :
    onLatchAsserted m env events = some (onLatch m env events) := by
  simp only [onLatchAsserted, onLatch,
    onWorkerDiedAsserted_eq (m := { m with workerDied := false }) hm]
  split_ifs <;> rfl

theorem onBackendConnect_counted (ht : Table m) (hm : Counted m) :
    Counted (onBackendConnect m env events) :=
  onBackendConnect_rule events ht hm (fun _ _ _ => hm) fun _ _ _ => hm

theorem callHandlersAsserted_eq (ht : Table m) (hm : Counted m) :
    callHandlersAsserted m env k events = some (callHandlers m env k events) := by
  simp only [callHandlersAsserted, callHandlers]
  have hm₁ : Counted (if (m.sockets k).type = .ipc then onBackendConnect m env events else m) := by
    split
    · exact onBackendConnect_counted ht hm
    · exact hm
  generalize (if (m.sockets k).type = .ipc then onBackendConnect m env events else m) = m₁ at hm₁ ⊢
  rw [onFrontendAsserted_eq hm₁]
  split <;> rfl

/-! ## Along runs -/

theorem Prim.staffed (h : Prim m m') (hm : Staffed m) : Staffed m' := by
  refine ⟨h.counted hm.counted, ?_⟩
  have hle := hm.le_max
  cases h with
  | spawn env =>
    unfold spawnWorker
    split
    · dsimp only
      split
      · push_cast
        exact le_max_of_le_right (by omega)
      · exact hle
    · exact hle
  | reap env =>
    refine le_trans ?_ hle
    simp only [onWorkerDied]
    split
    · exact_mod_cast (‹_ < _› : _).le
    · exact le_rfl
  | frontends p =>
    obtain ⟨s, hs⟩ := modifyFrontends_rest { m with frontendPaused := p } (frontendEvents p)
    rw [hs]; exact hle
  | _ => exact hle

theorem Prims.staffed (h : Prims m m') (hm : Staffed m) : Staffed m' := by
  induction h with
  | refl => exact hm
  | tail _ h ih => exact h.staffed ih

/-- **An event leaves the count right, and no assertion fails on the way.** -/
theorem handleEventAsserted_eq (ht : Table m) (hh : m.halted = false) (hm : Staffed m) :
    Staffed (onLatch m env ev.events) ∧
      handleEventAsserted m env ev = some (handleEvent m env ev) := by
  simp only [handleEventAsserted, handleEvent, onLatchAsserted_eq hm.counted, Option.bind_some]
  rcases onLatch_cases env ev.events hh with ⟨-, -, he⟩ | ⟨-, h0, hl⟩
  · rw [he]
    exact ⟨⟨hm.counted, hm.le_max⟩, rfl⟩
  · have hm₁ := Prims.staffed hl.prims hm
    refine ⟨hm₁, ?_⟩
    rw [if_neg (by simp [h0]), if_neg (by simp [h0])]
    exact callHandlersAsserted_eq (Prims.table hl.prims ht) hm₁.counted

theorem Step.staffed {l : Label} (hs : Step m l m') (ht : Table m) (hm : Staffed m) :
    Staffed m' ∧ AssertsHold m l := by
  cases hs with
  | wait _ _ _ | sigusr1 | sigterm => exact ⟨⟨hm.counted, hm.le_max⟩, trivial⟩
  | @handle env ev evs hb hh hf =>
    have hm' : Staffed { m with batch := evs } := ⟨hm.counted, hm.le_max⟩
    have hf' : Fresh { m with batch := evs } env := ⟨hf.ipc, hf.client⟩
    have hp := handleEvent_prims (ht.tail hb) (ht.head hb) hf' hh
    refine ⟨hp.staffed hm', fun ev' evs' hb' => ?_⟩
    cases hb.symm.trans hb'
    exact handleEventAsserted_eq (ht.tail hb) hh hm'

theorem startup_staffed (cfg : Setup) : Staffed (startup cfg) := by
  refine ⟨(startup_crew cfg).counted, ?_⟩
  rw [(startup_started cfg).numWorkers]
  exact le_max_left _ _

/-- **Workers are accounted for along every run**: whatever arrives, is registered or refused, starts
    or dies, and however many deaths one signal stands for, the count is the number of handles, at
    most two less than the processes allowed, and no assertion on it fails. -/
theorem workers_accounted {cfg : Setup} {h : List (Master × Label)}
    (hr : Run Step (startup cfg) h m) :
    Always (fun m => m.numWorkers = m.registered ∧
      (m.numWorkers : ℤ) ≤ max 0 ((cfg.maxWorkerProcesses : ℤ) - 2)) h m ∧
      Meets AssertsHold h := by
  let I := fun m : Master => Table m ∧ Staffed m ∧ m.maxWorkerProcesses = cfg.maxWorkerProcesses
  have hI₀ : I (startup cfg) := ⟨startup_table cfg, startup_staffed cfg, startup_max cfg⟩
  have hstep : ∀ m l m', I m → Step m l m' → I m' := by
    rintro m l m' ⟨ht, hm, hx⟩ hs
    exact ⟨hs.table ht, (hs.staffed ht hm).1, (hs.max_eq ht).trans hx⟩
  have hall := hr.always hI₀ hstep
  refine ⟨hall.imp ?_, ?_⟩
  · rintro m ⟨-, hm, hx⟩
    exact ⟨hm.counted, hx ▸ hm.le_max⟩
  · have hrun : Meets (fun _ _ => True) h := fun _ _ => trivial
    exact hr.meets_of_meets hI₀ (fun m l m' hI _ hs =>
      ⟨hstep m l m' hI hs, (hs.staffed hI.1 hI.2.1).2⟩) hrun

/-- A worker is registered for a client and dies, and the signal is accounted for. -/
theorem one_worker_accounted : ∃ h m, Run Step (startup smallSetup) h m ∧ h.length = 5 ∧
    m.numWorkers = 0 ∧ Meets AssertsHold h := by
  have hexec : (execs next (startup smallSetup) lastWorkerDiesRun).any
      (fun m => m.numWorkers = 0) = true := by decide
  obtain ⟨m, hr, hp⟩ := exists_run_of_execs (fun _ _ _ => step_of_next) hexec
  exact ⟨_, m, hr, by decide, of_decide_eq_true hp, (workers_accounted hr).2⟩

end Rustica
