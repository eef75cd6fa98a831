/-
  Workers for the queued clients.

  Workers are registered only when a client arrives (`on_frontend`), counted down only when some
  have died (`on_worker_died`), and a full queue stops the arrivals.  So clients can be stranded:
  the queue keeps them while no worker is left, until the next client arrives.

  `HasWorker` says that this is not so, and the steps that break it are a failed registration of
  the first worker and the death of the last one.
-/
import Rustica.Ledger
import Rustica.Idle

namespace Rustica

open Exec

variable {m m' : Master} {k : ℤ} {env : Env} {ev : WaitEvent} {b c fd : Pgsocket}
  {events : Events}

/-! ## The count of the workers -/

/-- The number of handles kept. -/
def Master.registered (m : Master) : ℕ :=
  ((List.range m.maxWorkerProcesses).filter fun i => (m.workerHandles i).isSome).length

/-- `num_workers` counts the handles. -/
def Counted (m : Master) : Prop := m.numWorkers = m.registered

theorem registered_eq_card : m.registered =
    ((Finset.range m.maxWorkerProcesses).filter fun i => (m.workerHandles i).isSome).card := by
  rw [Master.registered, ← List.toFinset_card_of_nodup (List.nodup_range.filter _)]
  congr 1
  ext i
  simp

/-- A handle is left as long as not all of them are taken. -/
theorem freeHandle_of_lt (h : m.registered < m.maxWorkerProcesses) :
    ∃ i, freeHandle m = some i ∧ i < m.maxWorkerProcesses ∧ m.workerHandles i = none := by
  cases hf : freeHandle m with
  | none =>
    have hall : (List.range m.maxWorkerProcesses).filter (fun i => (m.workerHandles i).isSome) =
        List.range m.maxWorkerProcesses := by
      refine List.filter_eq_self.2 fun i hi => ?_
      have := List.find?_eq_none.1 hf i hi
      simpa [Option.isSome_iff_ne_none] using this
    rw [Master.registered, hall, List.length_range] at h
    omega
  | some i =>
    have h1 := List.mem_range.1 (List.mem_of_find?_eq_some hf)
    have h2 := List.find?_some hf
    exact ⟨i, rfl, h1, by simpa using h2⟩

theorem Counted.spawnWorker (hm : Counted m) : Counted (Rustica.spawnWorker m env) := by
  unfold Rustica.spawnWorker
  split
  · rename_i hg
    dsimp only
    split
    · have hlt : m.registered < m.maxWorkerProcesses := by
        rw [← hm]; omega
      obtain ⟨i, hi, hlt, hnone⟩ := freeHandle_of_lt hlt
      simp only [hi, Counted, registered_eq_card]
      have hins : (Finset.range m.maxWorkerProcesses).filter (fun j =>
          (Function.update m.workerHandles i (some m.workerIdSeq) j).isSome) =
            insert i ((Finset.range m.maxWorkerProcesses).filter fun j =>
              (m.workerHandles j).isSome) := by
        ext j
        by_cases hj : j = i
        · subst hj; simp [hlt]
        · simp [hj]
      rw [hins, Finset.card_insert_of_notMem (by simp [hnone]), ← registered_eq_card, ← hm]
    · exact hm
  · exact hm

/-- Handles are only given back when deaths are accounted for. -/
theorem onWorkerDied_registered_le (m : Master) (env : Env) :
    (onWorkerDied m env).registered ≤ m.registered := by
  refine List.Sublist.length_le (List.monotone_filter_right _ fun i hi => ?_)
  simp only [onWorkerDied, Option.isSome_filter] at hi
  exact Option.isSome_of_any hi

theorem Counted.onWorkerDied (hm : Counted m) : Counted (Rustica.onWorkerDied m env) := by
  have hle := onWorkerDied_registered_le m env
  have hn : (Rustica.onWorkerDied m env).numWorkers =
      if (Rustica.onWorkerDied m env).registered < m.numWorkers
      then (Rustica.onWorkerDied m env).registered else m.numWorkers := rfl
  rw [Counted, hn]
  split
  · rfl
  · rw [hm] at *; omega

theorem Counted.modifyFrontends (hm : Counted m) : Counted (m.modifyFrontends events) := by
  obtain ⟨s, hs⟩ := modifyFrontends_rest m events
  rw [hs]; exact hm

theorem Prim.counted (h : Prim m m') (hm : Counted m) : Counted m' := by
  cases h with
  | spawn env => exact hm.spawnWorker
  | reap env => exact Counted.onWorkerDied (m := { m with workerDied := false }) hm
  | frontends p => exact Counted.modifyFrontends (m := { m with frontendPaused := p }) hm
  | _ => exact hm

theorem Prim.max_eq (h : Prim m m') : m'.maxWorkerProcesses = m.maxWorkerProcesses := by
  cases h with
  | spawn env =>
    obtain ⟨seq, n, hs, he⟩ := spawnWorker_rest m env
    rw [he]
  | frontends p =>
    obtain ⟨s, hs⟩ := modifyFrontends_rest { m with frontendPaused := p } (frontendEvents p)
    rw [hs]
  | _ => rfl

/-! ## The interest in new clients -/

/-- The listeners are registered for what the pause flag says, and only the latch for a latch. -/
structure Listening (m : Master) : Prop where
  frontend : ∀ k, m.inRange k → (m.sockets k).type = .frontend →
    m.interest k = frontendEvents m.frontendPaused
  latch : ∀ k, m.used k → (m.interest k).latchSet = true → k = 0
  batch : ∀ ev ∈ m.batch, ev.events.latchSet = true → ev.userData = 0

theorem interest_openSocket {type : SockType}
    (h : m.rmWaitSet.used ≠ m.rmWaitSet.waitSet.neventsSpace) (k : ℤ) :
    (m.openSocket type fd events).interest k =
      if k = nextWaitEventPos m.rmWaitSet then events else m.interest k := by
  simp only [Master.interest, Master.openSocket, Master.setSocket]
  rw [add_events h, Function.update_apply]
  split <;> rfl

theorem used_openSocket {type : SockType}
    (h : m.rmWaitSet.used ≠ m.rmWaitSet.waitSet.neventsSpace) (k : ℤ) :
    (m.openSocket type fd events).used k ↔ k = nextWaitEventPos m.rmWaitSet ∨ m.used k := by
  simp only [Master.used, Master.openSocket, Master.setSocket]
  rw [add_polled h, Function.update_apply]
  by_cases hk : k = nextWaitEventPos m.rmWaitSet <;> simp [hk]

theorem type_openSocket {type : SockType} (k : ℤ) :
    ((m.openSocket type fd events).sockets k).type =
      if k = nextWaitEventPos m.rmWaitSet then type else (m.sockets k).type := by
  rw [openSocket_sockets, Function.update_apply]
  split <;> rfl

theorem Table.frontend_used (ht : Table m) (hk : m.inRange k)
    (hty : (m.sockets k).type = .frontend) : m.used k := by
  refine (ht.live k ?_ hk).1 (by rw [hty]; decide)
  rintro rfl
  rw [ht.zero.1] at hty; cases hty

@[simp] theorem emit_rmWaitSet {a : Act} : (m.emit a).rmWaitSet = m.rmWaitSet := rfl

namespace Listening

/-- A new slot in use, registered for what its type calls for. -/
theorem openSocket (hm : Listening m) {type : SockType}
    (h : m.rmWaitSet.used ≠ m.rmWaitSet.waitSet.neventsSpace)
    (hty : type = .frontend → events = frontendEvents m.frontendPaused)
    (hl : events.latchSet = false) : Listening (m.openSocket type fd events) := by
  refine ⟨fun k hk hk' => ?_, fun k hu hk => ?_, hm.batch⟩
  · rw [type_openSocket] at hk'
    rw [interest_openSocket h]
    split at hk'
    · rw [if_pos ‹_›]; exact hty hk'
    · rw [if_neg ‹_›]; exact hm.frontend k hk hk'
  · rw [used_openSocket h] at hu
    rw [interest_openSocket h] at hk
    split at hk
    · rw [hl] at hk; cases hk
    · exact hm.latch k (hu.resolve_left ‹_›) hk

theorem modify (hm : Listening m) (ht : Table m) (hk : Live m k) (hl : events.latchSet = false) :
    Listening (m.modify k events) := by
  have hu := ht.live_used hk
  refine ⟨fun j hj hty => ?_, fun j hju hj => ?_, hm.batch⟩
  · rw [modify_interest ht hu]
    have hne : j ≠ k := by
      rintro rfl
      have hty : (m.sockets j).type = .frontend := hty
      rw [hk.type] at hty; cases hty
    rw [if_neg hne]; exact hm.frontend j hj hty
  · rw [modify_interest ht hu] at hj
    split at hj
    · rw [hl] at hj; cases hj
    · exact hm.latch j hju hj

theorem frontends (hm : Listening m) (ht : Table m) (p : Bool) :
    Listening ({ m with frontendPaused := p }.modifyFrontends (frontendEvents p)) := by
  have ht' : Table { m with frontendPaused := p } := { ht with }
  have hint : ∀ k, m.inRange k →
      ({ m with frontendPaused := p }.modifyFrontends (frontendEvents p)).interest k =
        if (m.sockets k).type = .frontend then frontendEvents p else m.interest k :=
    fun k hk => modifyFrontends_interest ht' hk
  have hsame : ∀ k, ({ m with frontendPaused := p }.modifyFrontends (frontendEvents p)).used k →
      m.inRange k ∧ ((m.sockets k).type ≠ .frontend → m.used k) := by
    intro k hu
    have ht₁ := (Prim.frontends (m := m) p).table ht
    have hr := ht₁.used_range hu
    obtain ⟨s, hs⟩ := modifyFrontends_rest { m with frontendPaused := p } (frontendEvents p)
    rw [hs] at hr ht₁ hu
    refine ⟨hr, fun hty => ?_⟩
    by_cases h0 : k = 0
    · exact h0 ▸ ht.zero.2
    · exact (ht.live k h0 hr).1 ((ht₁.live k h0 hr).2 hu)
  refine ⟨fun k hk hty => ?_, fun k hu hk => ?_, ?_⟩
  · have hr : m.inRange k ∧ (m.sockets k).type = .frontend := by
      obtain ⟨s, hs⟩ := modifyFrontends_rest { m with frontendPaused := p } (frontendEvents p)
      rw [hs] at hk hty
      exact ⟨hk, hty⟩
    rw [hint k hr.1, if_pos hr.2]
    obtain ⟨s, hs⟩ := modifyFrontends_rest { m with frontendPaused := p } (frontendEvents p)
    rw [hs]
  · obtain ⟨hr, hu⟩ := hsame k hu
    rw [hint k hr] at hk
    split at hk
    · cases p <;> cases hk
    · exact hm.latch k (hu ‹_›) hk
  · obtain ⟨s, hs⟩ := modifyFrontends_rest { m with frontendPaused := p } (frontendEvents p)
    rw [hs]; exact hm.batch

end Listening

theorem Prim.listening (h : Prim m m') (ht : Table m) (hm : Listening m) : Listening m' := by
  cases h with
  | opened _ hsp =>
    exact Listening.openSocket (m := m.emit _) ⟨hm.frontend, hm.latch, hm.batch⟩ hsp nofun rfl
  | @overflow b _ hsp =>
    have hset : ((m.emit (.acceptBackend b)).openSocket .backend b backendEvents).rmWaitSet =
        m.rmWaitSet := congrArg Prod.snd (add_of_full hsp)
    refine ⟨fun k hk hty => ?_, fun k hu hl => ?_, hm.batch⟩
    · simp only [Master.interest, emit_rmWaitSet, hset]
      refine hm.frontend k hk ?_
      rwa [emit_sockets, type_openSocket, if_neg] at hty
      rintro rfl
      have hk0 : 0 ≤ nextWaitEventPos m.rmWaitSet := hk.1
      rw [next_of_full hsp] at hk0
      omega
    · simp only [Master.interest, Master.used, emit_rmWaitSet, hset] at hu hl
      exact hm.latch k hu hl
  | @closed k hk =>
    have hp := ht.live_pos hk
    refine ⟨fun j hj hty => ?_, fun j hu hl => ?_, hm.batch⟩
    · refine hm.frontend j hj ?_
      by_cases hjk : j = k
      · subst hjk
        simp at hty
      · rwa [m.closeSocket_of_ne hjk] at hty
    · refine hm.latch j ?_ hl
      simp only [Master.used, Master.closeSocket, Master.setSocket, Master.emit, delete_polled,
        Function.update_apply] at hu
      split at hu
      · cases hu
      · exact hu
  | @scratch k ro w =>
    refine ⟨fun j hj hty => hm.frontend j hj ?_, hm.latch, hm.batch⟩
    by_cases hjk : j = k
    · subst hjk
      rwa [Master.setSocket_self] at hty
    · rwa [m.setSocket_of_ne _ hjk] at hty
  | interest hl hk => exact hm.modify ht hk hl
  | frontends p => exact hm.frontends ht p
  | spawn env =>
    obtain ⟨seq, n, hs, he⟩ := spawnWorker_rest m env
    rw [he]; exact ⟨hm.frontend, hm.latch, hm.batch⟩
  | accepted _ | noted _ _ | dropped _ | popIdle _ | pushIdle _ | pushJob _ _ | popJob _ | reap _
  | halt => exact ⟨hm.frontend, hm.latch, hm.batch⟩

/-- What holds of the workers and the listeners in every reachable state. -/
structure Crew (m : Master) : Prop where
  counted : Counted m
  listening : Listening m

theorem Prims.crew (h : Prims m m') (ht : Table m) (hm : Crew m) : Crew m' := by
  induction h with
  | refl => exact hm
  | tail h h' ih => exact ⟨h'.counted ih.counted, h'.listening (Prims.table h ht) ih.listening⟩

theorem Prims.max_eq (h : Prims m m') : m'.maxWorkerProcesses = m.maxWorkerProcesses := by
  induction h with
  | refl => rfl
  | tail _ h' ih => exact h'.max_eq.trans ih

theorem Step.crew {l : Label} (hs : Step m l m') (ht : Table m) (hm : Crew m) : Crew m' := by
  obtain ⟨hc, hf, hl, hb⟩ := hm
  cases hs with
  | wait _ _ hr =>
    refine ⟨hc, hf, hl, fun ev hev hlatch => ?_⟩
    obtain ⟨he, hu, -⟩ := hr.inRange ht ev hev
    rw [he]
    exact hl _ hu ((hr.registered ev hev).2.2.1 hlatch)
  | @handle env ev evs he hh hf' =>
    have ht' : Table { m with batch := evs } :=
      { ht with batch := fun e h => ht.batch e (by simp [he, h]) }
    have hk := ht.batch ev (by simp [he])
    have hm' : Crew { m with batch := evs } :=
      ⟨hc, hf, hl, fun e h => hb e (by simp [he, h])⟩
    exact (handleEvent_prims ht' hk ⟨hf'.ipc, hf'.client⟩ hh).crew ht' hm'
  | sigusr1 | sigterm => exact ⟨hc, hf, hl, hb⟩

theorem startup_crew (cfg : Setup) : Crew (startup cfg) := by
  have hst := startup_started cfg
  refine ⟨?_, ?_⟩
  · rw [Counted, hst.numWorkers, Master.registered]
    simp [hst.workerHandles]
  · have hlisten : Listening (startup cfg) ∧ (startup cfg).frontendPaused = false := by
      refine (startup_rule cfg (I := fun m => Listening m ∧ m.frontendPaused = false) ?_
        fun m type fd _ hne _ hm => ?_).2
      · have ht := startupLatch_table cfg
        refine ⟨⟨fun k _ hk => ?_, fun k hu _ => ?_, by simp [startupLatch, Master.openSocket,
          Master.setSocket]⟩, rfl⟩
        · rw [startupLatch_type] at hk; cases hk
        · by_contra h0
          exact (ht.live k h0 (ht.used_range hu)).2 hu (startupLatch_type cfg k)
      · refine ⟨Listening.openSocket (m := m.emit _) ⟨hm.1.frontend, hm.1.latch, hm.1.batch⟩ hne
          (fun _ => ?_) rfl, hm.2⟩
        rw [show (m.emit (.listen fd)).frontendPaused = false from hm.2]; rfl
    exact hlisten.1

/-! ## What breaks and what keeps a worker -/

/-- Where a client is queued, a registered worker is left that can still say hello. -/
def HasWorker (m : Master) : Prop :=
  m.queue ≠ [] → 0 < m.numWorkers ∧ ∃ i < m.maxWorkerProcesses, (m.workerHandles i).isSome = true

/-- No worker, a full queue, and no listener that accepts. -/
def Stranded (m : Master) : Prop :=
  m.frontendPaused = true ∧ m.jobs.size = jobQlen ∧ m.numWorkers = 0

/-- A client arrives while no worker is registered and none takes it, and the registration of one
    fails. -/
structure SpawnFails (m : Master) (env : Env) (ev : WaitEvent) : Prop where
  frontend : (m.sockets ev.userData).type = .frontend
  arrives : Arrives m env ev.events
  none : m.numWorkers = 0
  busy : ∀ k ∈ m.idleList, ¬ Takes m env k
  failed : env.register = false

/-- Death is noticed of all registered workers while clients are queued. -/
structure AllWorkersDie (m : Master) (env : Env) (ev : WaitEvent) : Prop where
  latch : ev.events.latchSet = true
  running : m.shutdownRequested = false
  died : m.workerDied = true
  queued : m.queue ≠ []
  stopped : ∀ i < m.maxWorkerProcesses, ∀ h, m.workerHandles i = some h → env.stopped h = true

/-- The step leaves a worker for the queued clients. -/
def KeepsWorker (m : Master) : Label → Prop
  | .handle env => ∀ ev evs, m.batch = ev :: evs →
      ¬ SpawnFails m env ev ∧ ¬ AllWorkersDie m env ev
  | _ => True

theorem Counted.pos_iff (hm : Counted m) :
    0 < m.numWorkers ↔ ∃ i < m.maxWorkerProcesses, (m.workerHandles i).isSome = true := by
  rw [hm, registered_eq_card, Finset.card_pos]
  simp [Finset.Nonempty]

theorem Counted.hasWorker_iff (hm : Counted m) :
    HasWorker m ↔ (m.queue ≠ [] → 0 < m.numWorkers) :=
  forall_congr' fun _ => ⟨And.left, fun h => ⟨h, hm.pos_iff.1 h⟩⟩

theorem HasWorker.not_stranded (hm : HasWorker m) : ¬ Stranded m := by
  rintro ⟨-, hfull, h0⟩
  have hq : m.queue ≠ [] := by
    rw [Master.queue, ne_eq, RingBuf.toList_eq_nil, hfull]; decide
  have := (hm hq).1
  omega

/-- After the dead are counted out, a worker is left unless all have stopped. -/
theorem onWorkerDied_pos (hm : Counted m) : 0 < (onWorkerDied m env).numWorkers ↔
    ¬ ∀ i < m.maxWorkerProcesses, ∀ h, m.workerHandles i = some h → env.stopped h = true := by
  rw [hm.onWorkerDied.pos_iff]
  simp only [onWorkerDied, Option.isSome_filter, not_forall]
  refine exists_congr fun i => ?_
  cases hi : m.workerHandles i <;> simp

theorem queue_modifyFrontends : (m.modifyFrontends events).queue = m.queue ∧
    (m.modifyFrontends events).numWorkers = m.numWorkers := by
  obtain ⟨s, hs⟩ := modifyFrontends_rest m events
  rw [hs]; exact ⟨rfl, rfl⟩

theorem Incomplete.numWorkers (h : Incomplete m env k events m') :
    m'.numWorkers = m.numWorkers := by cases h <;> rfl

theorem Greeted.numWorkers (h : Greeted m env k m') : m'.numWorkers = m.numWorkers := by
  cases h with
  | idle _ | failed _ _ => rfl
  | sent _ _ =>
    unfold resumeFrontends
    split
    · rw [queue_modifyFrontends.2]; rfl
    · rfl

/-- A backend's event can take clients off the queue, and leaves the workers alone. -/
theorem onBackend_queue (env : Env) (events : Events) (hn : Names m) (hk : Live m k) :
    ((onBackend m env k events).queue ≠ [] → m.queue ≠ []) ∧
      (onBackend m env k events).numWorkers = m.numWorkers := by
  constructor
  · intro hq
    obtain ⟨h1, h2⟩ := onBackend_ledger env events hn hk
    by_cases hd : Completes (m.sockets k) env events ∧ 0 < m.jobs.size ∧
        env.sendmsg (m.sockets k).fd = true
    · obtain ⟨c, q, hcq, -⟩ := h1 hd
      rw [show m.queue = c :: q from hcq]; exact List.cons_ne_nil _ _
    · have := congrArg Ledger.queue (h2 hd)
      exact fun h => hq (this.trans h)
  · rcases onBackend_cases m env k events with ⟨-, h⟩ | ⟨-, bytes, -, h⟩
    · exact h.numWorkers
    · rw [h]
      exact (onHello_cases (helloState m k bytes) env k).numWorkers

theorem onBackendConnect_queue (env : Env) (events : Events) (ht : Table m) :
    (onBackendConnect m env events).queue = m.queue ∧
    (onBackendConnect m env events).numWorkers = m.numWorkers :=
  onBackendConnect_rule (I := fun m' => m'.queue = m.queue ∧ m'.numWorkers = m.numWorkers) events ht
    ⟨rfl, rfl⟩ (fun _ _ _ => ⟨rfl, rfl⟩) fun _ _ _ => ⟨rfl, rfl⟩

theorem enqueue_numWorkers : (enqueue m c).numWorkers = m.numWorkers := by
  unfold enqueue
  split
  · dsimp only
    split
    · exact queue_modifyFrontends.2
    · rfl
  · rfl

theorem enqueue_queue (hn : Names m) : (enqueue m c).queue ≠ [] := by
  unfold enqueue
  split
  · have hpush : Master.queue { m with jobs := m.jobs.push jobQlen c } = m.queue ++ [c] :=
      RingBuf.toList_push hn.jobs ‹_›
    dsimp only
    split
    · rw [queue_modifyFrontends.1]
      change Master.queue { m with jobs := m.jobs.push jobQlen c } ≠ []
      rw [hpush]; simp
    · rw [hpush]; simp
  · change m.queue ≠ []
    rw [Master.queue, ne_eq, RingBuf.toList_eq_nil]
    have := ‹¬ m.jobs.size < jobQlen›
    simp only [jobQlen] at this
    omega

/-- A registration is tried when no worker is idle and one more is allowed. -/
theorem spawnWorker_numWorkers (hidle : m.idle.size = 0) :
    (spawnWorker m env).numWorkers = if (m.numWorkers : ℤ) < (m.maxWorkerProcesses : ℤ) - 2 ∧
      env.register = true then m.numWorkers + 1 else m.numWorkers := by
  unfold spawnWorker
  simp only [hidle, true_and]
  by_cases hlt : (m.numWorkers : ℤ) < (m.maxWorkerProcesses : ℤ) - 2 <;>
    by_cases hr : env.register = true <;> simp [hlt, hr]

/-- What the rounds of the loop over the ring keep: the queue, the count, and whether some entry
    takes the client. -/
structure SameTakers (m : Master) (env : Env) (m' : Master) : Prop where
  queue : m'.queue = m.queue
  numWorkers : m'.numWorkers = m.numWorkers
  max : m'.maxWorkerProcesses = m.maxWorkerProcesses
  takers : (∃ k ∈ m'.idleList, Takes m' env k) ↔ ∃ k ∈ m.idleList, Takes m env k

/-- The front of the ring does not take the client, so one of the others does or none. -/
theorem takers_pop (ht : Table m) (hpos : 0 < m.idle.size) (hno : ¬ Takes m env m.idle.front) :
    (∃ k ∈ m.popIdle.idleList, Takes m env k) ↔ ∃ k ∈ m.idleList, Takes m env k := by
  have hlist : m.idleList = m.idle.front :: m.popIdle.idleList := RingBuf.toList_pop ht.ring hpos
  rw [hlist]
  simp [hno]

namespace SameTakers

theorem skip (h : SameTakers m env m') (ht : Table m') (hpos : 0 < m'.idle.size)
    (hno : ¬ Takes m' env m'.idle.front) : SameTakers m env m'.popIdle where
  queue := h.queue
  numWorkers := h.numWorkers
  max := h.max
  takers := (takers_pop ht hpos hno).trans h.takers

theorem broken (h : SameTakers m env m') (ht : Table m') (hpos : 0 < m'.idle.size)
    (hno : ¬ Takes m' env m'.idle.front) {a : Act} :
    SameTakers m env ((m'.popIdle.emit a).closeSocket m'.idle.front) where
  queue := h.queue
  numWorkers := h.numWorkers
  max := h.max
  takers := by
    rw [← h.takers, ← takers_pop ht hpos hno]
    refine exists_congr fun k => and_congr_right fun _ => ?_
    -- closing the front's slot takes no other entry's connection away
    by_cases hk : k = m'.idle.front
    · subst hk
      exact iff_of_false (fun hT => by simpa using hT.1) hno
    · rw [Takes, Master.closeSocket_of_ne _ hk]; rfl

end SameTakers

/-- **A client arrives**: it is handed to the worker that takes it; else it is queued or turned
    away, after one more worker was asked for. -/
theorem onFrontend_workers (events : Events) (ht : Table m) (hn : Names m) (hf : Fresh m env) :
    (¬ Arrives m env events ∧ onFrontend m env events = m) ∨
    (Arrives m env events ∧ (∃ k ∈ m.idleList, Takes m env k) ∧
      (onFrontend m env events).queue = m.queue ∧
      (onFrontend m env events).numWorkers = m.numWorkers) ∨
    (Arrives m env events ∧ (∀ k ∈ m.idleList, ¬ Takes m env k) ∧
      (onFrontend m env events).queue ≠ [] ∧ (onFrontend m env events).numWorkers =
        if (m.numWorkers : ℤ) < (m.maxWorkerProcesses : ℤ) - 2 ∧ env.register = true
        then m.numWorkers + 1 else m.numWorkers) := by
  have hrule := onFrontend_rule events (I := SameTakers m env) ht hf ⟨rfl, rfl, rfl, Iff.rfl⟩
    (fun m' hp h hpos hno => h.skip (Prims.table hp ht) hpos hno)
    (fun m' hp _ hpos hno h => h.broken (Prims.table hp ht) hpos hno)
  rcases hrule with h | ⟨harr, m₁, hp, -, hI, hs⟩
  · exact .inl h
  refine .inr ?_
  generalize onFrontend m env events = m₂ at hs
  cases hs with
  | handed hpos hlive htake =>
    have hmem : m₁.idle.front ∈ m₁.idleList := by
      rw [Master.idleList, RingBuf.toList_pop (Prims.table hp ht).ring hpos]
      exact List.mem_cons_self
    exact .inl ⟨harr, hI.takers.1 ⟨_, hmem, htake⟩, hI.queue, hI.numWorkers⟩
  | kept h0 =>
    have hempty : m₁.idleList = [] := RingBuf.toList_eq_nil.2 h0
    have hno : ∀ k ∈ m.idleList, ¬ Takes m env k := by
      intro k hk htake
      obtain ⟨j, hj, -⟩ := hI.takers.2 ⟨k, hk, htake⟩
      rw [hempty] at hj
      cases hj
    have hn₁ : Names (spawnWorker m₁ env) :=
      Prims.names (spawnWorker_prims m₁ env) (Prims.names hp hn)
    refine .inr ⟨harr, hno, enqueue_queue hn₁, ?_⟩
    rw [enqueue_numWorkers, spawnWorker_numWorkers h0, hI.numWorkers, hI.max]

/-- The first worker is there exactly if Postgres registers it. -/
theorem onFrontend_first_worker (ht : Table m) (hn : Names m) (hf : Fresh m env)
    (h2 : 2 < m.maxWorkerProcesses) (harr : Arrives m env events)
    (hbusy : ∀ k ∈ m.idleList, ¬ Takes m env k) (h0 : m.numWorkers = 0) :
    0 < (onFrontend m env events).numWorkers ↔ env.register = true := by
  rcases onFrontend_workers events ht hn hf with ⟨hno, -⟩ | ⟨-, ⟨k, hk, htake⟩, -, -⟩ |
    ⟨-, -, -, hw⟩
  · exact absurd harr hno
  · exact absurd htake (hbusy k hk)
  · have hlt : (m.numWorkers : ℤ) < (m.maxWorkerProcesses : ℤ) - 2 := by omega
    rw [hw]
    by_cases hreg : env.register = true
    · rw [if_pos ⟨hlt, hreg⟩]
      exact iff_of_true (by omega) hreg
    · rw [if_neg fun h => hreg h.2, h0]
      exact iff_of_false (lt_irrefl 0) hreg

/-! ## The steps -/

/-- The latch part breaks `HasWorker` when it finds all workers dead, and only then. -/
theorem onLatch_hasWorker (hc : Counted m) (hm : HasWorker m) (hl : ev.events.latchSet = true)
    (hs : m.shutdownRequested = false) :
    HasWorker (onLatch m env ev.events) ↔ ¬ AllWorkersDie m env ev := by
  by_cases hd : m.workerDied = true
  swap
  · have he : onLatch m env ev.events = m := by simp [onLatch, hl, hs, hd]
    rw [he]
    exact iff_of_true hm fun h => hd h.died
  have he : onLatch m env ev.events = onWorkerDied { m with workerDied := false } env := by
    simp [onLatch, hl, hs, hd]
  have hc' : Counted { m with workerDied := false } := hc
  rw [he, hc'.onWorkerDied.hasWorker_iff, onWorkerDied_pos hc']
  constructor
  · exact fun h hall => h hall.queued hall.stopped
  · exact fun h hq hall => h ⟨hl, hs, hd, hq, hall⟩

/-- A handler breaks `HasWorker` when it fails to register the first worker, and only then. -/
theorem handler_hasWorker (ht : Table m) (hn : Names m) (hc : Crew m)
    (h2 : 2 < m.maxWorkerProcesses) (hk : m.inRange ev.userData) (hf : Fresh m env)
    (hm : HasWorker m) :
    HasWorker (handler m env ev.userData ev.events) ↔ ¬ SpawnFails m env ev := by
  have hc' : Counted (handler m env ev.userData ev.events) :=
    ((handler_prims ht hk hf).crew ht hc).counted
  have hm := hc.counted.hasWorker_iff.1 hm
  rw [hc'.hasWorker_iff]
  clear hc'
  unfold handler
  split
  · exact iff_of_true hm fun h => by simp_all [h.frontend]
  · obtain ⟨hq, hw⟩ := onBackendConnect_queue env ev.events ht
    rw [hq, hw]
    exact iff_of_true hm fun h => by simp_all [h.frontend]
  · rename_i hty
    rcases onFrontend_workers ev.events ht hn hf with ⟨hno, he⟩ | ⟨-, htake, hq, hw⟩ |
      ⟨harr, hbusy, hq, hw⟩
    · rw [he]
      exact iff_of_true hm fun h => hno h.arrives
    · rw [hq, hw]
      obtain ⟨k, hk, htake⟩ := htake
      exact iff_of_true hm fun h => h.busy k hk htake
    · rw [hw]
      -- whether the count is positive is up to the registration, if there was no worker
      by_cases h0 : m.numWorkers = 0
      · rw [← hw, onFrontend_first_worker ht hn hf h2 harr hbusy h0]
        constructor
        · intro h hfail
          have := h hq
          rw [hfail.failed] at this; cases this
        · intro h _
          by_contra hreg
          exact h ⟨hty, harr, h0, hbusy, by simpa using hreg⟩
      · refine iff_of_true (fun _ => ?_) fun h => h0 h.none
        split <;> omega
  · rename_i hty
    obtain ⟨hq, hw⟩ := onBackend_queue env ev.events hn ⟨hk, hty⟩
    rw [hw]
    exact iff_of_true (fun h => hm (hq h)) fun h => by simp [h.frontend] at hty

theorem handleEvent_hasWorker (env : Env) (ht : Table m) (hn : Names m) (hc : Crew m)
    (h2 : 2 < m.maxWorkerProcesses) (hk : m.inRange ev.userData) (hf : Fresh m env)
    (hh : m.halted = false) (hl : ev.events.latchSet = true → ev.userData = 0)
    (hm : HasWorker m) : HasWorker (handleEvent m env ev) ↔
      ¬ SpawnFails m env ev ∧ ¬ AllWorkersDie m env ev := by
  have hlatchSlot : ev.events.latchSet = true → (m.sockets ev.userData).type = .unset :=
    fun h => hl h ▸ ht.zero.1
  refine handleEvent_rule (I := fun m' => HasWorker m' ↔
    ¬ SpawnFails m env ev ∧ ¬ AllWorkersDie m env ev) ht hk hf hh ?_ ?_
  · intro h1 h2
    refine iff_of_true hm ⟨fun h => ?_, fun h => ?_⟩
    · have := h.frontend
      rw [hlatchSlot h1] at this; cases this
    · have := h.running
      rw [h2] at this; cases this
  · rintro hrun m' rfl - ht' -
    -- the latch's slot has no handler, and any other event no latch part
    by_cases hlatch : ev.events.latchSet = true
    · have hno : ¬ SpawnFails m env ev := by
        intro h
        have := h.frontend
        rw [hlatchSlot hlatch] at this; cases this
      have he : handler (onLatch m env ev.events) env ev.userData ev.events =
          onLatch m env ev.events := by
        rw [handler, hl hlatch, ht'.zero.1]
      rw [he, onLatch_hasWorker hc.counted hm hlatch (hrun hlatch)]
      exact (and_iff_right hno).symm
    · have he : onLatch m env ev.events = m := by simp [onLatch, hlatch]
      rw [he, handler_hasWorker ht hn hc h2 hk hf hm]
      exact (and_iff_left fun h => hlatch h.latch).symm

/-- **A step leaves a worker for the queued clients exactly if it keeps to the guard.** -/
theorem Step.hasWorker {l : Label} (hs : Step m l m') (ht : Table m) (hn : Names m) (hc : Crew m)
    (h2 : 2 < m.maxWorkerProcesses) (hm : HasWorker m) : HasWorker m' ↔ KeepsWorker m l := by
  cases hs with
  | wait _ _ _ | sigusr1 | sigterm => exact ⟨fun _ => trivial, fun _ => hm⟩
  | @handle env ev evs hb hh hf =>
    have ht' := ht.tail hb
    have hn' := hn.tail evs
    have hc' : Crew { m with batch := evs } :=
      ⟨hc.counted, hc.listening.frontend, hc.listening.latch,
        fun e he => hc.listening.batch e (by simp [hb, he])⟩
    have hk := ht.head hb
    have hiff := handleEvent_hasWorker env ht' hn' hc' h2 hk ⟨hf.ipc, hf.client⟩ hh
      (hc.listening.batch ev (by simp [hb])) hm
    rw [hiff]
    have hspawn : SpawnFails { m with batch := evs } env ev ↔ SpawnFails m env ev :=
      ⟨fun h => ⟨h.frontend, ⟨h.arrives.1, h.arrives.2, h.arrives.3⟩, h.none, h.busy, h.failed⟩,
        fun h => ⟨h.frontend, ⟨h.arrives.1, h.arrives.2, h.arrives.3⟩, h.none, h.busy, h.failed⟩⟩
    have hdie : AllWorkersDie { m with batch := evs } env ev ↔ AllWorkersDie m env ev :=
      ⟨fun h => ⟨h.latch, h.running, h.died, h.queued, h.stopped⟩,
        fun h => ⟨h.latch, h.running, h.died, h.queued, h.stopped⟩⟩
    rw [hspawn, hdie]
    constructor
    · rintro h ev' evs' hb'
      cases hb.symm.trans hb'
      exact h
    · exact fun h => h ev evs hb

/-- While the queue has room, the listeners are registered for new clients. -/
def Listens (m : Master) : Prop :=
  m.frontendPaused = false → ∀ k, m.inRange k → (m.sockets k).type = .frontend →
    m.used k ∧ m.interest k = wlSocketAccept

/-- Without a worker, the next client that none takes gets one registered if Postgres agrees. -/
def AsksForWorker (m : Master) : Prop :=
  ∀ env ev evs m', m.batch = ev :: evs → Step m (.handle env) m' →
    (m.sockets ev.userData).type = .frontend → Arrives m env ev.events →
    (∀ k ∈ m.idleList, ¬ Takes m env k) → m.numWorkers = 0 →
    (0 < m'.numWorkers ↔ env.register = true)

theorem Crew.asksForWorker (ht : Table m) (hn : Names m) (hc : Crew m)
    (h2 : 2 < m.maxWorkerProcesses) : AsksForWorker m := by
  rintro env ev evs m' hb hs hty harr hbusy h0
  have hc' : Counted m' := (hs.crew ht hc).counted
  cases hs with
  | @handle _ ev' evs' hb' hh hf =>
    cases hb.symm.trans hb'
    have ht' := ht.tail hb
    have hn' := hn.tail evs
    have hk := ht.head hb
    refine handleEvent_rule (I := fun m' => 0 < m'.numWorkers ↔ env.register = true) ht' hk
      ⟨hf.ipc, hf.client⟩ hh (fun hl _ => ?_) fun _ m₁ he _ _ hf₁ => ?_
    · have := hc.listening.batch ev (by simp [hb]) hl
      rw [this, ht.zero.1] at hty; cases hty
    · have hl : ev.events.latchSet = false := by
        by_contra hl
        have := hc.listening.batch ev (by simp [hb]) (by simpa using hl)
        rw [this, ht.zero.1] at hty; cases hty
      have he : m₁ = { m with batch := evs } := by simp [he, onLatch, hl]
      subst he
      have harr' : Arrives { m with batch := evs } env ev.events := ⟨harr.1, harr.2, harr.3⟩
      simp only [handler, hty]
      exact onFrontend_first_worker ht' hn' hf₁ h2 harr' hbusy h0

theorem Step.max_eq {l : Label} (hs : Step m l m') (ht : Table m) :
    m'.maxWorkerProcesses = m.maxWorkerProcesses := by
  cases hs with
  | @handle env ev evs hb hh hf =>
    have ht' := ht.tail hb
    have hk := ht.head hb
    have hp : Prims _ _ := handleEvent_prims ht' hk ⟨hf.ipc, hf.client⟩ hh
    exact hp.max_eq
  | wait _ _ _ | sigusr1 | sigterm => rfl

theorem startup_max (cfg : Setup) : (startup cfg).maxWorkerProcesses = cfg.maxWorkerProcesses :=
  (startup_rule cfg (I := fun m => m.maxWorkerProcesses = cfg.maxWorkerProcesses) rfl
    fun _ _ _ _ _ _ hm => hm).2

theorem startup_hasWorker (cfg : Setup) : HasWorker (startup cfg) := by
  intro hq
  exact absurd (by rw [Master.queue, (startup_started cfg).jobs]; rfl) hq

/-- **Queued clients have a worker exactly along the runs in which no first registration fails and
    no last worker dies**: workers are registered for arriving clients only.  Along these no client
    is stranded; and in every run the listeners accept while the queue has room, and the next client
    gets a worker registered. -/
theorem queued_clients_have_worker {cfg : Setup} (h2 : 2 < cfg.maxWorkerProcesses)
    {h : List (Master × Label)} (hr : Run Step (startup cfg) h m) :
    (Always HasWorker h m ↔ Meets KeepsWorker h) ∧
      (Meets KeepsWorker h → Always (fun m => ¬ Stranded m) h m) ∧
      Always Listens h m ∧ Always AsksForWorker h m := by
  let I := fun m : Master => Table m ∧ Names m ∧ Crew m ∧
    m.maxWorkerProcesses = cfg.maxWorkerProcesses
  have hI₀ : I (startup cfg) :=
    ⟨startup_table cfg, startup_names cfg, startup_crew cfg, startup_max cfg⟩
  have hstep : ∀ m l m', I m → Step m l m' → I m' := by
    rintro m l m' ⟨ht, hn, hc, hx⟩ hs
    exact ⟨hs.table ht, hs.names ht hn, hs.crew ht hc, (hs.max_eq ht).trans hx⟩
  have hiff : Always HasWorker h m ↔ Meets KeepsWorker h := by
    refine hr.always_iff_meets hI₀ (startup_hasWorker cfg) ?_ ?_
    · rintro m l m' ⟨ht, hn, hc, hx⟩ hm hC hs
      exact ⟨hstep _ _ _ ⟨ht, hn, hc, hx⟩ hs, (hs.hasWorker ht hn hc (hx ▸ h2) hm).2 hC⟩
    · rintro m l m' ⟨ht, hn, hc, hx⟩ hm hC hs hm'
      exact hC ((hs.hasWorker ht hn hc (hx ▸ h2) hm).1 hm')
  have hall := hr.always hI₀ hstep
  refine ⟨hiff, fun hC => (hiff.2 hC).imp fun _ => HasWorker.not_stranded, hall.imp ?_,
    hall.imp ?_⟩
  · rintro m ⟨ht, -, hc, -⟩ hp k hk hty
    refine ⟨ht.frontend_used hk hty, ?_⟩
    rw [hc.listening.frontend k hk hty, hp]; rfl
  · rintro m ⟨ht, hn, hc, hx⟩
    exact hc.asksForWorker ht hn (hx ▸ h2)

/-- Client 10 is queued with a worker registered for it, and the worker dies. -/
def lastWorkerDiesRun : List Label :=
  [.wait [readable 2], .handle { acceptClient := 10, register := true }, .sigusr1,
    .wait [⟨0, wlLatchSet, 0⟩], .handle { stopped := fun _ => true }]

/-- The death is accounted for, the batch is done, and the client has no worker. -/
theorem queued_client_without_worker : ∃ m, Reach Step (startup smallSetup) m ∧ m.batch = [] ∧
    m.workerDied = false ∧ 10 ∈ m.queue ∧ m.numWorkers = 0 ∧ ¬ HasWorker m := by
  have hexec : (execs next (startup smallSetup) lastWorkerDiesRun).any (fun m =>
      m.batch.isEmpty ∧ m.workerDied = false ∧ 10 ∈ m.queue ∧ m.numWorkers = 0) = true := by decide
  obtain ⟨m, hr, hp⟩ := exists_reach_of_execs (fun _ _ _ => step_of_next) hexec
  obtain ⟨h1, h2, h3, h4⟩ := of_decide_eq_true hp
  refine ⟨m, hr, List.isEmpty_iff.1 h1, h2, h3, h4, fun h => ?_⟩
  have := (h (List.ne_nil_of_mem h3)).1
  omega

/-- Until the worker dies, the queued client has one. -/
theorem queued_client_with_worker : ∃ h m, Run Step (startup smallSetup) h m ∧ 10 ∈ m.queue ∧
    Always HasWorker h m := by
  have h1 : Step (startup smallSetup) (.wait [readable 2]) _ :=
    .wait (by decide) (by decide) (by decide)
  have h2 : Step { startup smallSetup with batch := [readable 2] }
      (.handle { acceptClient := 10, register := true }) _ := .handle rfl (by decide) (by decide)
  have hr := Run.snoc (.snoc .nil h1) h2
  refine ⟨_, _, hr, by decide, (queued_clients_have_worker (by decide) hr).1.2 ?_⟩
  simp only [meets_cons, meets_nil, and_true, KeepsWorker]
  rintro ev evs he
  cases he
  refine ⟨fun h => ?_, fun h => ?_⟩
  · exact absurd h.failed (by decide)
  · exact absurd h.latch (by decide)

end Rustica
