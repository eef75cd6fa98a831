/-
  Who owns an accepted client.

  A client descriptor leaves the master by one of four ways: handed to an idle worker, taken from
  the queue by a worker that says hello, turned away from a full queue, or queued after failed
  sends.  `Ledger` keeps the books of this, with one move for each way, and every step of the
  master makes one of the moves.

  The master owns its clients right (`ClientsOwned`) when each is in the queue once or closed once.
  Every move keeps that, except for the dispatch from the queue in `on_backend`: there the sent
  descriptor is not closed.
-/
import Rustica.Names

namespace Rustica

open Exec

/-- The books: the clients accepted, queued, closed, and sent to a worker.  All but the queue have
    the latest first. -/
structure Ledger where
  accepted : List Pgsocket
  queue : List Pgsocket
  closed : List Pgsocket
  sent : List Pgsocket

namespace Ledger

/-- The ways of a client. -/
inductive Move (L : Ledger) : Ledger → Prop
  | quiet : Move L L
  | handed {c} : c ∉ L.accepted → Move L
      { L with accepted := c :: L.accepted, closed := c :: L.closed, sent := c :: L.sent }
  | rejected {c} : c ∉ L.accepted → Move L
      { L with accepted := c :: L.accepted, closed := c :: L.closed }
  | queued {c} : c ∉ L.accepted → Move L
      { L with accepted := c :: L.accepted, queue := L.queue ++ [c] }

/-- The front of the queue is sent, and stays open. -/
def dequeue (L : Ledger) (c : Pgsocket) (q : List Pgsocket) : Ledger :=
  { L with queue := q, sent := c :: L.sent }

/-- Only accepted clients are entered. -/
structure Wf (L : Ledger) : Prop where
  queue : ∀ c ∈ L.queue, c ∈ L.accepted
  closed : ∀ c ∈ L.closed, c ∈ L.accepted

/-- Every client is in the queue once or closed once, and closed if it was sent. -/
structure Owned (L : Ledger) : Prop where
  once : ∀ c ∈ L.accepted, L.queue.count c + L.closed.count c = 1
  sent : ∀ c ∈ L.sent, L.closed.count c = 1

variable {L L' : Ledger} {c : Pgsocket} {q : List Pgsocket}

theorem Wf.not_queue (hw : L.Wf) (hc : c ∉ L.accepted) : L.queue.count c = 0 :=
  List.count_eq_zero.2 fun h => hc (hw.queue c h)

theorem Wf.not_closed (hw : L.Wf) (hc : c ∉ L.accepted) : L.closed.count c = 0 :=
  List.count_eq_zero.2 fun h => hc (hw.closed c h)

/-- A sent client is an accepted one, as only these are closed. -/
theorem Owned.sent_accepted (hw : L.Wf) (ho : L.Owned) : ∀ c ∈ L.sent, c ∈ L.accepted := by
  intro c hc
  by_contra h
  have h0 := hw.not_closed h
  have h1 := ho.sent c hc
  omega

/-- **The moves keep the books right.** -/
theorem Move.owned (h : Move L L') (hw : L.Wf) (ho : L.Owned) : L'.Owned := by
  cases h with
  | quiet => exact ho
  | @handed c hc =>
    have hq := hw.not_queue hc
    have hcl := hw.not_closed hc
    refine ⟨fun c' hc' => ?_, fun c' hc' => ?_⟩
    · by_cases he : c = c'
      · subst he; simp [hq, hcl]
      · have := ho.once c' (List.mem_of_ne_of_mem (Ne.symm he) hc')
        simpa [List.count_cons_of_ne he] using this
    · by_cases he : c = c'
      · subst he; simp [hcl]
      · have := ho.sent c' (List.mem_of_ne_of_mem (Ne.symm he) hc')
        simpa [List.count_cons_of_ne he] using this
  | @rejected c hc =>
    have hq := hw.not_queue hc
    have hcl := hw.not_closed hc
    refine ⟨fun c' hc' => ?_, fun c' hc' => ?_⟩
    · by_cases he : c = c'
      · subst he; simp [hq, hcl]
      · have := ho.once c' (List.mem_of_ne_of_mem (Ne.symm he) hc')
        simpa [List.count_cons_of_ne he] using this
    · have hne : c ≠ c' := fun he => hc (he ▸ ho.sent_accepted hw c' hc')
      simpa [List.count_cons_of_ne hne] using ho.sent c' hc'
  | @queued c hc =>
    have hq := hw.not_queue hc
    have hcl := hw.not_closed hc
    refine ⟨fun c' hc' => ?_, ho.sent⟩
    by_cases he : c = c'
    · subst he; simp [hq, hcl]
    · have := ho.once c' (List.mem_of_ne_of_mem (Ne.symm he) hc')
      simpa [List.count_append, List.count_singleton, he] using this

/-- **Sending from the queue breaks them**: the client is neither queued nor closed. -/
theorem Owned.not_dequeue (ho : L.Owned) (hw : L.Wf) (hq : L.queue = c :: q) :
    ¬ (L.dequeue c q).Owned := by
  intro h
  have h1 := ho.once c (hw.queue c (by simp [hq]))
  have h2 := h.sent c (List.mem_cons_self)
  simp only [hq, List.count_cons_self, dequeue] at h1 h2
  omega

end Ledger

/-! ## The books of the master -/

def Act.closedFd : Act → Option Pgsocket
  | .close fd => some fd
  | _ => none

def Act.sentClient : Act → Option Pgsocket
  | .sent _ c => some c
  | _ => none

def Master.ledger (m : Master) : Ledger where
  accepted := m.clients
  queue := m.queue
  closed := (m.trace.filterMap Act.closedFd).filter (· ∈ m.clients)
  sent := m.trace.filterMap Act.sentClient

/-- How often the master has closed `fd`. -/
def Master.closes (m : Master) (fd : Pgsocket) : ℕ := m.trace.count (.close fd)

variable {m m' : Master} {k : ℤ} {env : Env} {ev : WaitEvent} {b c fd : Pgsocket} {a : Act}
  {events : Events}

theorem count_closedFd (l : List Act) (fd : Pgsocket) :
    (l.filterMap Act.closedFd).count fd = l.count (.close fd) := by
  induction l with
  | nil => rfl
  | cons a l ih =>
    cases a with
    | close fd' => simp [Act.closedFd, ih, List.count_cons]
    | _ => simpa [List.filterMap_cons, Act.closedFd, List.count_cons] using ih

theorem ledger_closed (hc : c ∈ m.clients) : m.ledger.closed.count c = m.closes c := by
  rw [Master.closes, ← count_closedFd]
  exact List.count_filter (by simpa using hc)

theorem Names.ledger_wf (hm : Names m) : m.ledger.Wf where
  queue := hm.queue
  closed _ hc := of_decide_eq_true (List.mem_filter.1 hc).2

/-- A backend's descriptor is not in the books. -/
theorem ledger_close_other (hc : c ∉ m.clients) : (m.emit (.close c)).ledger = m.ledger := by
  have hcl : (m.emit (.close c)).clients = m.clients := rfl
  simp only [Master.ledger, hcl, emit_trace, List.filterMap_cons, Act.closedFd, Act.sentClient,
    List.filter_cons, hc, decide_false, Bool.false_eq_true, if_false]
  rfl

theorem ledger_close_client (hc : c ∈ m.clients) :
    (m.emit (.close c)).ledger = { m.ledger with closed := c :: m.ledger.closed } := by
  have hcl : (m.emit (.close c)).clients = m.clients := rfl
  simp only [Master.ledger, hcl, emit_trace, List.filterMap_cons, Act.closedFd, Act.sentClient,
    List.filter_cons, hc, decide_true, if_true]
  rfl

theorem ledger_accept (hm : Names m) (hc : c ∉ m.opened) :
    (m.emit (.acceptClient c)).ledger = { m.ledger with accepted := c :: m.ledger.accepted } := by
  have hcl : (m.emit (.acceptClient c)).clients = c :: m.clients := rfl
  have hnot : ∀ fd ∈ m.trace.filterMap Act.closedFd, fd ≠ c := by
    rintro fd hfd rfl
    obtain ⟨a, ha, he⟩ := List.mem_filterMap.1 hfd
    cases a <;> simp only [Act.closedFd, Option.some.injEq, reduceCtorEq] at he
    exact hc (hm.closed _ (he ▸ ha))
  have hfilter : (m.trace.filterMap Act.closedFd).filter (· ∈ c :: m.clients) =
      (m.trace.filterMap Act.closedFd).filter (· ∈ m.clients) :=
    List.filter_congr fun fd hfd => by simp [hnot fd hfd]
  simp only [Master.ledger, hcl, emit_trace, List.filterMap_cons, Act.closedFd, Act.sentClient,
    hfilter]
  rfl

theorem ledger_closeSocket (hm : Names m) (hk : (m.sockets k).type = .backend) :
    (m.closeSocket k).ledger = m.ledger :=
  ledger_close_other (m := { m with rmWaitSet := _ }) (hm.backend_not_client hk)

theorem ledger_modifyFrontends : (m.modifyFrontends events).ledger = m.ledger := by
  obtain ⟨s, hs⟩ := modifyFrontends_rest m events
  rw [hs]; rfl

theorem ledger_handOver (hc : c ∈ m.clients) : (handOver m k c).ledger =
    { m.ledger with closed := c :: m.ledger.closed, sent := c :: m.ledger.sent } := by
  have h : (handOver m k c).ledger =
      ((m.emit (.sent (m.sockets k).fd c)).emit (.close c)).ledger := rfl
  have hc : c ∈ (m.emit (.sent (m.sockets k).fd c)).clients := hc
  rw [h, ledger_close_client hc]; rfl

theorem ledger_spawnWorker : (spawnWorker m env).ledger = m.ledger := by
  obtain ⟨seq, n, hs, he⟩ := spawnWorker_rest m env
  rw [he]; rfl

/-- A client that no worker takes is queued, or closed where the queue is full. -/
theorem ledger_enqueue (hm : Names m) (hc : c ∈ m.clients) :
    (enqueue m c).ledger = if m.jobs.size < jobQlen
      then { m.ledger with queue := m.ledger.queue ++ [c] }
      else { m.ledger with closed := c :: m.ledger.closed } := by
  unfold enqueue
  split
  · have hpush : Master.ledger { m with jobs := m.jobs.push jobQlen c } =
        { m.ledger with queue := m.ledger.queue ++ [c] } := by
      have hq : Master.queue { m with jobs := m.jobs.push jobQlen c } = m.queue ++ [c] :=
        RingBuf.toList_push hm.jobs ‹_›
      simp only [Master.ledger, hq]; rfl
    dsimp only
    split
    · rw [ledger_modifyFrontends]; exact hpush
    · exact hpush
  · exact ledger_close_client hc

/-! ## The moves of the handlers -/

theorem onBackendConnect_ledger (ht : Table m) (hf : Fresh m env) :
    (onBackendConnect m env events).ledger = m.ledger :=
  onBackendConnect_rule (I := fun m' => m'.ledger = m.ledger) events ht rfl (fun _ _ _ => rfl)
    fun _ _ _ => ledger_close_other fun h => hf.ipc (clients_sub_opened h)

theorem onFrontend_ledger (hm : Names m) (ht : Table m) (hf : Fresh m env) :
    Ledger.Move m.ledger (onFrontend m env events).ledger := by
  have hnames : ∀ {m'}, Prims m m' → Names m' := fun h => Prims.names h hm
  have hrule := onFrontend_rule events
    (I := fun m' => m'.ledger =
      { m.ledger with accepted := env.acceptClient :: m.ledger.accepted })
    ht hf (ledger_accept hm hf.client) (fun _ _ h _ _ => h) ?_
  · rcases hrule with ⟨-, h⟩ | ⟨ha, m', hp, hc, hl, hs⟩
    · rw [h]; exact .quiet
    have hnew : env.acceptClient ∉ m.ledger.accepted := fun h => ha.fresh (clients_sub_opened h)
    generalize onFrontend m env events = m₁ at hs
    cases hs with
    | handed _ hk _ =>
      rw [ledger_handOver (m := m'.popIdle) hc]
      have he : m'.popIdle.ledger = m'.ledger := rfl
      rw [he, hl]
      exact .handed hnew
    | kept _ =>
      have hsp := spawnWorker_prims m' env
      rw [ledger_enqueue (hnames (hp.trans hsp)) (hsp.clients_sub hc), ledger_spawnWorker, hl]
      split
      exacts [.queued hnew, .rejected hnew]
  · intro m' hp hk hpos _ hl
    have hn := hnames hp
    have hpop : Names (m'.popIdle.emit
        (.sendFailed (m'.sockets m'.idle.front).fd env.acceptClient)) :=
      Prims.names (.tail (.single (.popIdle hpos))
        (.noted (k := m'.idle.front) ⟨hk.range, hk.type⟩ (.sendFailed _))) hn
    rw [ledger_closeSocket hpop hk.type]
    exact hl

theorem Incomplete.ledger (h : Incomplete m env k events m') (hm : Names m) (hk : Live m k) :
    m'.ledger = m.ledger := by
  cases h with
  | quiet | deaf _ _ | piece _ _ _ _ => rfl
  | closed => exact ledger_closeSocket hm hk.type
  | recvFailed => exact ledger_closeSocket hm hk.type
  | badHello bytes =>
    have hn : Names (m.emit (.received (m.sockets k).fd bytes)) :=
      (Prim.noted hk (.received bytes)).names hm
    rw [ledger_closeSocket hn hk.type]; rfl

/-- A queued client is sent to a worker that says hello, unless `sendmsg` fails. -/
theorem Greeted.ledger (h : Greeted m env k m') (hm : Names m) (hk : Live m k) :
    if 0 < m.jobs.size ∧ env.sendmsg (m.sockets k).fd = true
    then ∃ c q, m.ledger.queue = c :: q ∧ m'.ledger = m.ledger.dequeue c q
    else m'.ledger = m.ledger := by
  cases h with
  | idle h0 => rw [if_neg (by omega)]; rfl
  | sent hpos hs =>
    rw [if_pos ⟨hpos, hs⟩]
    refine ⟨m.jobs.front, (m.jobs.pop jobQlen).toList jobQlen, RingBuf.toList_pop hm.jobs hpos, ?_⟩
    unfold resumeFrontends
    split
    · rw [ledger_modifyFrontends]; rfl
    · rfl
  | failed _ hs =>
    rw [if_neg (by simp [hs])]
    have hn := (helloRead_noted hk (.sendFailed m.jobs.front)).names
      (Prims.names (helloRead_prims hk) hm)
    rw [ledger_closeSocket hn (helloRead_live hk).type]
    rfl

/-- The event makes `on_backend` hand a queued client to the worker that has just said hello. -/
structure QueueDispatch (m : Master) (env : Env) (ev : WaitEvent) : Prop where
  running : ev.events.latchSet = true → m.shutdownRequested = false
  backend : (m.sockets ev.userData).type = .backend
  hello : Completes (m.sockets ev.userData) env ev.events
  queued : 0 < m.jobs.size
  sent : env.sendmsg (m.sockets ev.userData).fd = true

theorem onBackend_ledger (env : Env) (events : Events) (hm : Names m) (hk : Live m k) :
    (Completes (m.sockets k) env events ∧ 0 < m.jobs.size ∧
        env.sendmsg (m.sockets k).fd = true → ∃ c q, m.ledger.queue = c :: q ∧
          (onBackend m env k events).ledger = m.ledger.dequeue c q) ∧
      (¬ (Completes (m.sockets k) env events ∧ 0 < m.jobs.size ∧
        env.sendmsg (m.sockets k).fd = true) → (onBackend m env k events).ledger = m.ledger) := by
  rcases onBackend_cases m env k events with ⟨hc, h⟩ | ⟨hc, bytes, -, h⟩
  · exact ⟨fun hd => absurd hd.1 hc, fun _ => h.ledger hm hk⟩
  · have hl : (helloState m k bytes).ledger = m.ledger := rfl
    have hon := (onHello_cases (helloState m k bytes) env k).ledger
      (Prims.names (helloState_prims hk bytes) hm) (helloState_live hk bytes)
    rw [helloState_fd, hl, show (helloState m k bytes).jobs.size = m.jobs.size from rfl] at hon
    rw [h]
    constructor
    · exact fun hd => by rwa [if_pos hd.2] at hon
    · exact fun hd => by rwa [if_neg fun h => hd ⟨hc, h⟩] at hon

/-! ## The moves of a step -/

/-- **Every event makes one of the moves, or sends the front of the queue.** -/
theorem handleEvent_ledger (ht : Table m) (hn : Names m) (hk : m.inRange ev.userData)
    (hf : Fresh m env) (hm : m.halted = false) :
    (QueueDispatch m env ev → ∃ c q, m.ledger.queue = c :: q ∧
        (handleEvent m env ev).ledger = m.ledger.dequeue c q) ∧
      (¬ QueueDispatch m env ev → Ledger.Move m.ledger (handleEvent m env ev).ledger) := by
  refine handleEvent_rule (I := fun m' => (QueueDispatch m env ev → ∃ c q,
    m.ledger.queue = c :: q ∧ m'.ledger = m.ledger.dequeue c q) ∧
      (¬ QueueDispatch m env ev → Ledger.Move m.ledger m'.ledger)) ht hk hf hm ?_ ?_
  · intro h1 h2
    refine ⟨fun hq => ?_, fun _ => .quiet⟩
    have := hq.running h1
    simp [h2] at this
  · rintro hrun m₁ - hl ht₁ hf₁
    have hn₁ := Prims.names hl.prims hn
    obtain ⟨-, n, hs, d, rfl⟩ := hl
    unfold handler
    cases hty : (m.sockets ev.userData).type with
    | unset => exact ⟨fun hq => by simp [hq.backend] at hty, fun _ => .quiet⟩
    | ipc =>
      refine ⟨fun hq => by simp [hq.backend] at hty, fun _ => ?_⟩
      simp only [onBackendConnect_ledger ht₁ hf₁]; exact .quiet
    | frontend =>
      exact ⟨fun hq => by simp [hq.backend] at hty, fun _ => onFrontend_ledger hn₁ ht₁ hf₁⟩
    | backend =>
      obtain ⟨h1, h2⟩ := onBackend_ledger env ev.events hn₁ ⟨hk, hty⟩
      refine ⟨fun hq => h1 ⟨hq.hello, hq.queued, hq.sent⟩, fun hq => ?_⟩
      simp only
      rw [h2 fun hd => hq ⟨hrun, hty, hd.1, hd.2.1, hd.2.2⟩]
      exact .quiet

/-! ## Ownership along runs -/

/-- Every accepted client is in the queue once or closed once; what was sent is closed; and the
    clients the master holds open are those in the queue. -/
structure ClientsOwned (m : Master) : Prop where
  once : ∀ c ∈ m.clients, m.queue.count c + m.closes c = 1
  sent : ∀ b c, .sent b c ∈ m.trace → c ∈ m.clients ∧ m.closes c = 1
  held : ∀ c, c ∈ m.clients ∧ m.closes c = 0 ↔ c ∈ m.queue

/-- The step does not hand out a queued client. -/
def NoQueueDispatch (m : Master) : Label → Prop
  | .handle env => ∀ ev evs, m.batch = ev :: evs → ¬ QueueDispatch m env ev
  | _ => True

theorem mem_ledger_sent : c ∈ m.ledger.sent ↔ ∃ b, .sent b c ∈ m.trace := by
  simp only [Master.ledger, List.mem_filterMap]
  constructor
  · rintro ⟨a, ha, he⟩
    cases a <;> simp only [Act.sentClient, Option.some.injEq, reduceCtorEq] at he
    exact ⟨_, he ▸ ha⟩
  · rintro ⟨b, h⟩
    exact ⟨_, h, rfl⟩

/-- Ownership read off the books. -/
theorem clientsOwned_iff (hm : Names m) : ClientsOwned m ↔ m.ledger.Owned := by
  constructor
  · intro h
    refine ⟨fun c hc => by rw [ledger_closed hc]; exact h.once c hc, fun c hc => ?_⟩
    obtain ⟨b, hb⟩ := mem_ledger_sent.1 hc
    obtain ⟨h1, h2⟩ := h.sent b c hb
    rw [ledger_closed h1]; exact h2
  · intro h
    have honce : ∀ c ∈ m.clients, m.queue.count c + m.closes c = 1 := by
      intro c hc
      rw [← ledger_closed hc]; exact h.once c hc
    refine ⟨honce, fun b c hb => ?_, fun c => ⟨fun hc => ?_, fun hc => ?_⟩⟩
    · have hs := mem_ledger_sent.2 ⟨b, hb⟩
      have hc : c ∈ m.clients := h.sent_accepted hm.ledger_wf c hs
      exact ⟨hc, by rw [← ledger_closed hc]; exact h.sent c hs⟩
    · have := honce c hc.1
      exact List.count_pos_iff.1 (by omega)
    · have hcl := hm.queue c hc
      have h1 := honce c hcl
      have h2 := List.count_pos_iff.2 hc
      exact ⟨hcl, by omega⟩

theorem startup_clientsOwned (cfg : Setup) : ClientsOwned (startup cfg) := by
  have hst := startup_started cfg
  have hq : (startup cfg).queue = [] := by simp [Master.queue, hst.jobs]
  have hno : ∀ c, c ∉ (startup cfg).clients := by
    intro c
    rw [hst.clients]
    exact List.not_mem_nil
  refine ⟨fun c hc => absurd hc (hno c), fun b c hb => ?_, fun c => ?_⟩
  · obtain ⟨fd, h⟩ := hst.trace _ hb
    cases h
  · simp [hq, hno c]

theorem Step.clientsOwned {l : Label} (hs : Step m l m') (ht : Table m) (hn : Names m)
    (ho : ClientsOwned m) : ClientsOwned m' ↔ NoQueueDispatch m l := by
  have hn' := hs.names ht hn
  have hown := (clientsOwned_iff hn).1 ho
  rw [clientsOwned_iff hn']
  cases hs with
  | wait _ _ _ | sigusr1 | sigterm => exact ⟨fun _ => trivial, fun _ => hown⟩
  | @handle env ev evs hb hh hf =>
    have ht' := ht.tail hb
    have hn₀ := hn.tail evs
    have hk := ht.head hb
    obtain ⟨h1, h2⟩ := handleEvent_ledger ht' hn₀ hk ⟨hf.ipc, hf.client⟩ hh
    have hsame : QueueDispatch { m with batch := evs } env ev ↔ QueueDispatch m env ev :=
      ⟨fun h => ⟨h.running, h.backend, h.hello, h.queued, h.sent⟩,
        fun h => ⟨h.running, h.backend, h.hello, h.queued, h.sent⟩⟩
    constructor
    · rintro ho' ev' evs' hb' hq
      cases hb.symm.trans hb'
      obtain ⟨c, q, hq', hl⟩ := h1 (hsame.2 hq)
      rw [hl] at ho'
      exact hown.not_dequeue hn.ledger_wf hq' ho'
    · intro hq
      exact (h2 fun h => hq ev evs hb (hsame.1 h)).owned hn.ledger_wf hown

/-- **The master owns its clients right exactly along the runs that never hand out a queued
    client**: `on_backend` sends the client's descriptor but does not close its own copy. -/
theorem clients_owned_iff_no_queue_dispatch {cfg : Setup} {h : List (Master × Label)}
    (hr : Run Step (startup cfg) h m) : Always ClientsOwned h m ↔ Meets NoQueueDispatch h := by
  refine hr.always_iff_meets (I := fun m => Table m ∧ Names m)
    ⟨startup_table cfg, startup_names cfg⟩ (startup_clientsOwned cfg) ?_ ?_
  · intro m l m' hI ho hC hs
    exact ⟨⟨hs.table hI.1, hs.names hI.1 hI.2⟩, (hs.clientsOwned hI.1 hI.2 ho).2 hC⟩
  · intro m l m' hI ho hC hs ho'
    exact hC ((hs.clientsOwned hI.1 hI.2 ho).1 ho')

/-- Client 10 finds no idle worker and is queued; then worker 20 connects and says hello. -/
def queuedClientRun : List Label :=
  [.wait [readable 2], .handle { acceptClient := 10, register := true },
    .wait [readable 1], .handle { acceptIpc := 20 },
    .wait [readable 3], .handle { recv := some (backendHello ++ [0, 0, 0, 0]),
                                  sendmsg := fun _ => true }]

/-- The client is sent to the worker and never closed by the master. -/
theorem queued_client_not_closed : ∃ m, Reach Step (startup smallSetup) m ∧
    .sent 20 10 ∈ m.trace ∧ 10 ∉ m.queue ∧ m.closes 10 = 0 ∧ ¬ ClientsOwned m := by
  have hexec : (execs next (startup smallSetup) queuedClientRun).any (fun m =>
      .sent 20 10 ∈ m.trace ∧ 10 ∉ m.queue ∧ m.closes 10 = 0) = true := by decide
  obtain ⟨m, hr, hp⟩ := exists_reach_of_execs (fun _ _ _ => step_of_next) hexec
  obtain ⟨h1, h2, h3⟩ := of_decide_eq_true hp
  refine ⟨m, hr, h1, h2, h3, fun ho => ?_⟩
  have := (ho.sent 20 10 h1).2
  omega

/-- Up to the hello the master owns the client right. -/
theorem queued_client_owned : ∃ h m, Run Step (startup smallSetup) h m ∧ 10 ∈ m.queue ∧
    Always ClientsOwned h m := by
  have h1 : Step (startup smallSetup) (.wait [readable 2]) _ :=
    .wait (by decide) (by decide) (by decide)
  have h2 : Step { startup smallSetup with batch := [readable 2] }
      (.handle { acceptClient := 10, register := true }) _ := .handle rfl (by decide) (by decide)
  refine ⟨_, _, .snoc (.snoc .nil h1) h2, by decide,
    (clients_owned_iff_no_queue_dispatch (.snoc (.snoc .nil h1) h2)).2 ?_⟩
  simp only [meets_cons, meets_nil, and_true, NoQueueDispatch]
  rintro ev evs he hq
  cases he
  exact absurd hq.backend (by decide)

end Rustica
