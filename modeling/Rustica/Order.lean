/-
  The order in which clients are served.

  A client reaches a worker through the ring of idle workers or through the job queue.  Never do
  both hold entries (`Exclusive`), so the two together are one bounded queue (`Fifo`): a client
  handed to an idle worker passes through an empty queue.
-/
import Rustica.Spawn
import Rustica.Lib.Fifo

namespace Rustica

open Exec

/-! ## The books as a queue -/

namespace Ledger

/-- The clients that were closed without being sent. -/
def refused (L : Ledger) : List Pgsocket := L.closed.filter (· ∉ L.sent)

/-- The books in the order of events. -/
def fifo (L : Ledger) : Fifo Pgsocket where
  arrived := L.accepted.reverse
  queue := L.queue
  served := L.sent.reverse
  refused := L.refused.reverse

/-- The moves of the books, and when they are made. -/
inductive Dispatch (n : ℕ) (L : Ledger) : Ledger → Prop
  | quiet : Dispatch n L L
  | handed {c} : c ∉ L.accepted → L.queue = [] → Dispatch n L
      { L with accepted := c :: L.accepted, closed := c :: L.closed, sent := c :: L.sent }
  | rejected {c} : c ∉ L.accepted → L.queue.length = n → Dispatch n L
      { L with accepted := c :: L.accepted, closed := c :: L.closed }
  | queued {c} : c ∉ L.accepted → L.queue.length < n → Dispatch n L
      { L with accepted := c :: L.accepted, queue := L.queue ++ [c] }
  | dequeued {c q} : L.queue = c :: q → Dispatch n L (L.dequeue c q)

variable {L L' : Ledger} {c : Pgsocket} {n : ℕ}

theorem mem_refused : c ∈ L.fifo.refused ↔ c ∈ L.closed ∧ c ∉ L.sent := by
  simp [fifo, refused]

/-- Sending a client that is not refused takes nothing off the refused. -/
theorem refused_sent (h : c ∈ L.closed → c ∈ L.sent) {q} :
    refused ⟨L.accepted, q, L.closed, c :: L.sent⟩ = L.refused := by
  refine List.filter_congr fun x hx => ?_
  have hne : x ∉ L.sent → x ≠ c := by
    rintro hs rfl
    exact hs (h hx)
  by_cases hs : x ∈ L.sent <;> simp [hs, hne]

/-- **The moves are steps of one bounded queue.** -/
theorem Dispatch.steps (h : Dispatch n L L') (hn : 0 < n) (hw : L.Wf) (hf : L.fifo.Fair) :
    Fifo.Steps n L.fifo L'.fifo := by
  have hnew : ∀ {c}, c ∉ L.accepted → c ∉ L.fifo.arrived := fun hc h =>
    hc (List.mem_reverse.1 h)
  cases h with
  | quiet => exact .refl
  | @handed c hc hq =>
    have hpass := Fifo.Steps.pass (s := L.fifo) hn (hnew hc) hq
    have hcl : c ∉ L.closed := fun h => hc (hw.closed c h)
    have he : refused ⟨c :: L.accepted, L.queue, c :: L.closed, c :: L.sent⟩ = L.refused := by
      refine Eq.trans ?_ (refused_sent (q := L.queue) fun h => absurd h hcl)
      exact List.filter_cons_of_neg (by simp)
    simpa [fifo, he] using hpass
  | @rejected c hc hfull =>
    have hs : c ∉ L.sent := fun h => hnew hc (hf.served_sub (List.mem_reverse.2 h))
    have hstep := Fifo.Step.refuse (s := L.fifo) (hnew hc) (show n ≤ L.queue.length by omega)
    exact .single (by simpa [fifo, refused, hs] using hstep)
  | @queued c hc hlt =>
    exact .single (by simpa [fifo, refused] using Fifo.Step.put (s := L.fifo) (hnew hc) hlt)
  | @dequeued c q hq =>
    have hcq : c ∈ L.fifo.queue := by simp [fifo, hq]
    have he : refused ⟨L.accepted, q, L.closed, c :: L.sent⟩ = L.refused := by
      refine refused_sent fun h => ?_
      by_contra hs
      exact hf.not_refused hcq (mem_refused.2 ⟨h, hs⟩)
    have hstep := Fifo.Step.take (n := n) (s := L.fifo) hq
    exact .single (by simpa [fifo, dequeue, he] using hstep)

/-- A client leaves the queue by being sent. -/
theorem Dispatch.left (h : Dispatch n L L') (hc : c ∈ L.queue) (hc' : c ∉ L'.queue) :
    c ∈ L'.sent := by
  cases h with
  | quiet | handed _ _ | rejected _ _ => exact absurd hc hc'
  | queued _ _ => exact absurd (List.mem_append_left _ hc) hc'
  | dequeued hq =>
    rw [hq] at hc
    rcases List.mem_cons.1 hc with rfl | hc
    exacts [List.mem_cons_self, absurd hc hc']

/-- A client is refused as it arrives, by a full queue. -/
theorem Dispatch.refused (h : Dispatch n L L') (hc : c ∉ L.closed) (hc' : c ∈ L'.closed)
    (hs : c ∉ L'.sent) : c ∉ L.accepted ∧ c ∈ L'.accepted ∧ L.queue.length = n := by
  cases h with
  | quiet | queued _ _ | dequeued _ => exact absurd hc' hc
  | handed _ _ =>
    rcases List.mem_cons.1 hc' with rfl | hc'
    exacts [absurd List.mem_cons_self hs, absurd hc' hc]
  | rejected hnew hfull =>
    rcases List.mem_cons.1 hc' with rfl | hc'
    exacts [⟨hnew, List.mem_cons_self, hfull⟩, absurd hc' hc]

end Ledger

/-! ## The idle ring and the queue -/

variable {m m' : Master} {k : ℤ} {env : Env} {ev : WaitEvent} {b c fd : Pgsocket}
  {events : Events}

/-- While clients are queued no worker is noted as idle. -/
def Exclusive (m : Master) : Prop := 0 < m.jobs.size → m.idle.size = 0

theorem length_queue : m.queue.length = m.jobs.size := RingBuf.length_toList

theorem Exclusive.of_eq (hx : Exclusive m) (hj : m'.jobs = m.jobs) (hi : m'.idle = m.idle) :
    Exclusive m' := by
  unfold Exclusive
  rw [hj, hi]; exact hx

theorem modifyFrontends_rings :
    (m.modifyFrontends events).jobs = m.jobs ∧ (m.modifyFrontends events).idle = m.idle := by
  obtain ⟨s, hs⟩ := modifyFrontends_rest m events
  rw [hs]; exact ⟨rfl, rfl⟩

theorem Incomplete.exclusive (h : Incomplete m env k events m') (hx : Exclusive m) :
    Exclusive m' := by
  cases h <;> exact hx

theorem Greeted.exclusive (h : Greeted m env k m') (hx : Exclusive m) : Exclusive m' := by
  cases h with
  | idle h0 =>
    intro hpos
    exact absurd h0 (Nat.ne_of_gt hpos)
  | failed _ _ => exact hx
  | sent hpos _ =>
    have h0 := hx hpos
    intro _
    unfold resumeFrontends
    split
    · rw [modifyFrontends_rings.2]; exact h0
    · exact h0

theorem enqueue_idle : (enqueue m c).idle = m.idle := by
  unfold enqueue
  split
  · dsimp only
    split
    · rw [modifyFrontends_rings.2]
    · rfl
  · rfl

theorem onBackendConnect_exclusive (ht : Table m) (hx : Exclusive m) :
    Exclusive (onBackendConnect m env events) :=
  onBackendConnect_rule events ht hx (fun _ _ _ => hx) fun _ _ _ => hx

/-! ## One event -/

/-- A client that no idle worker takes arrives with the event. -/
structure Untaken (m : Master) (env : Env) (ev : WaitEvent) (c : Pgsocket) : Prop where
  frontend : (m.sockets ev.userData).type = .frontend
  arrives : Arrives m env ev.events
  client : c = env.acceptClient
  untaken : ∀ k ∈ m.idleList, ¬ Takes m env k

/-- What an event does to the queue of clients. -/
structure Dispatched (m : Master) (env : Env) (ev : WaitEvent) (m' : Master) : Prop where
  dispatch : Ledger.Dispatch jobQlen m.ledger m'.ledger
  exclusive : Exclusive m'
  /-- a client that has arrived and is not handed over at once -/
  untaken : ∀ c ∈ m'.clients, c ∉ m.clients → c ∉ m'.ledger.sent → Untaken m env ev c

theorem Dispatched.quiet (hx : Exclusive m') (hl : m'.ledger = m.ledger) :
    Dispatched m env ev m' := by
  refine ⟨by rw [hl]; exact .quiet, hx, fun c hc hno => absurd ?_ hno⟩
  have hcl : m'.clients = m.clients := congrArg Ledger.accepted hl
  exact hcl ▸ hc

theorem onFrontend_dispatched (ht : Table m) (hn : Names m) (hf : Fresh m env)
    (hx : Exclusive m) (hty : (m.sockets ev.userData).type = .frontend) :
    Dispatched m env ev (onFrontend m env ev.events) := by
  have hnames : ∀ {m'}, Prims m m' → Names m' := fun h => Prims.names h hn
  have hrule := onFrontend_rule ev.events (I := fun m' => SameTakers m env m' ∧ m'.ledger =
      { m.ledger with accepted := env.acceptClient :: m.ledger.accepted }) ht hf
    ⟨⟨rfl, rfl, rfl, Iff.rfl⟩, ledger_accept hn hf.client⟩
    (fun m' hp h hpos hno => ⟨h.1.skip (Prims.table hp ht) hpos hno, h.2⟩) ?_
  swap
  · rintro m' hp hk hpos hno ⟨hsame, hl⟩
    refine ⟨hsame.broken (Prims.table hp ht) hpos hno, ?_⟩
    have hpop : Names (m'.popIdle.emit
        (.sendFailed (m'.sockets m'.idle.front).fd env.acceptClient)) :=
      Prims.names (.tail (.single (.popIdle hpos))
        (.noted (k := m'.idle.front) ⟨hk.range, hk.type⟩ (.sendFailed _))) (hnames hp)
    rw [ledger_closeSocket hpop hk.type]
    exact hl
  rcases hrule with ⟨-, h⟩ | ⟨harr, m₁, hp, hc, ⟨hsame, hl⟩, hs⟩
  · rw [h]; exact .quiet hx rfl
  have hnew : env.acceptClient ∉ m.ledger.accepted := fun h => harr.fresh (clients_sub_opened h)
  have hsize : m₁.jobs.size = m.jobs.size := by
    rw [← length_queue, ← length_queue, hsame.queue]
  generalize onFrontend m env ev.events = m₂ at hs
  cases hs with
  | handed hpos _ htake =>
    have hmem : m₁.idle.front ∈ m₁.idleList := by
      rw [Master.idleList, RingBuf.toList_pop (Prims.table hp ht).ring hpos]
      exact List.mem_cons_self
    -- the ring had an entry, so the queue is empty
    have h0 : m.jobs.size = 0 := by
      obtain ⟨j, hj, -⟩ := hsame.takers.1 ⟨_, hmem, htake⟩
      by_contra hne
      rw [Master.idleList, RingBuf.toList_eq_nil.2 (hx (Nat.pos_of_ne_zero hne))] at hj
      cases hj
    have hl' : (handOver m₁.popIdle m₁.idle.front env.acceptClient).ledger = _ :=
      ledger_handOver (m := m₁.popIdle) hc
    rw [show m₁.popIdle.ledger = m₁.ledger from rfl, hl] at hl'
    refine ⟨?_, fun hpos => ?_, fun c hc' hno hns => ?_⟩
    · rw [hl']
      exact .handed hnew (RingBuf.toList_eq_nil.2 h0)
    · have hpos : 0 < m₁.jobs.size := hpos
      omega
    · rw [hl'] at hns
      have hcl : c ∈ env.acceptClient :: m.clients := by
        have he : (handOver m₁.popIdle m₁.idle.front env.acceptClient).clients = _ :=
          congrArg Ledger.accepted hl'
        rw [he] at hc'; exact hc'
      rcases List.mem_cons.1 hcl with rfl | hc
      exacts [absurd List.mem_cons_self hns, absurd hc hno]
  | kept h0 =>
    have hempty : m₁.idleList = [] := RingBuf.toList_eq_nil.2 h0
    have hsp := spawnWorker_prims m₁ env
    have hidle : (enqueue (spawnWorker m₁ env) env.acceptClient).idle = m₁.idle := by
      obtain ⟨seq, n, hs, he⟩ := spawnWorker_rest m₁ env
      rw [enqueue_idle, he]
    have hjobs : (spawnWorker m₁ env).jobs.size = m.jobs.size := by
      obtain ⟨seq, n, hs, he⟩ := spawnWorker_rest m₁ env
      rw [he, ← hsize]
    have hl' := ledger_enqueue (hnames (hp.trans hsp)) (hsp.clients_sub hc)
    rw [ledger_spawnWorker, hl, hjobs] at hl'
    have hlen : m.ledger.queue.length = m.jobs.size := length_queue
    refine ⟨?_, fun _ => by rw [hidle]; exact h0, fun c hc' hno _ => ⟨hty, harr, ?_, ?_⟩⟩
    · rw [hl']
      split
      · exact .queued hnew (by omega)
      · have := hn.jobs_le
        exact .rejected hnew (by omega)
    · have hcl : c ∈ env.acceptClient :: m.clients := by
        have he : (enqueue (spawnWorker m₁ env) env.acceptClient).clients = _ :=
          congrArg Ledger.accepted hl'
        rw [he] at hc'
        split at hc' <;> exact hc'
      exact (List.mem_cons.1 hcl).resolve_right hno
    · intro k hk htake
      obtain ⟨j, hj, -⟩ := hsame.takers.2 ⟨k, hk, htake⟩
      rw [hempty] at hj
      cases hj

theorem onBackend_dispatched (hn : Names m) (hk : Live m ev.userData) (hx : Exclusive m) :
    Dispatched m env ev (onBackend m env ev.userData ev.events) := by
  have hx' : Exclusive (onBackend m env ev.userData ev.events) := by
    rcases onBackend_cases m env ev.userData ev.events with ⟨-, h⟩ | ⟨-, bytes, -, h⟩
    · exact h.exclusive hx
    · rw [h]
      exact (onHello_cases (helloState m ev.userData bytes) env ev.userData).exclusive hx
  obtain ⟨h1, h2⟩ := onBackend_ledger env ev.events hn hk
  by_cases hd : Completes (m.sockets ev.userData) env ev.events ∧ 0 < m.jobs.size ∧
      env.sendmsg (m.sockets ev.userData).fd = true
  · obtain ⟨c, q, hq, hl⟩ := h1 hd
    refine ⟨by rw [hl]; exact .dequeued hq, hx', fun c' hc' hno => absurd ?_ hno⟩
    have hcl : (onBackend m env ev.userData ev.events).clients = m.clients :=
      congrArg Ledger.accepted hl
    exact hcl ▸ hc'
  · exact .quiet hx' (h2 hd)

/-- **Every event makes a move of the queue.** -/
theorem handleEvent_dispatched (ht : Table m) (hn : Names m) (hx : Exclusive m)
    (hk : m.inRange ev.userData) (hf : Fresh m env) (hh : m.halted = false) :
    Dispatched m env ev (handleEvent m env ev) := by
  refine handleEvent_rule ht hk hf hh (fun _ _ => .quiet hx rfl) ?_
  rintro - m₁ - hl ht₁ hf₁
  have hn₁ := Prims.names hl.prims hn
  obtain ⟨-, n, hs, d, rfl⟩ := hl
  unfold handler
  cases hty : (m.sockets ev.userData).type with
  | unset => exact .quiet hx rfl
  | ipc => exact .quiet (onBackendConnect_exclusive ht₁ hx) (onBackendConnect_ledger ht₁ hf₁)
  | frontend =>
    obtain ⟨h1, h2, h3⟩ := onFrontend_dispatched ht₁ hn₁ hf₁ hx hty
    exact ⟨h1, h2, fun c hc hno hs => by
      obtain ⟨h4, h5, h6, h7⟩ := h3 c hc hno hs
      exact ⟨h4, ⟨h5.ready, h5.valid, h5.fresh⟩, h6, h7⟩⟩
  | backend =>
    have hd : Dispatched _ env ev _ := onBackend_dispatched hn₁ ⟨hk, hty⟩ hx
    obtain ⟨h1, h2, h3⟩ := hd
    exact ⟨h1, h2, fun c hc hno hs => by
      obtain ⟨h4, h5, h6, h7⟩ := h3 c hc hno hs
      exact ⟨h4, ⟨h5.ready, h5.valid, h5.fresh⟩, h6, h7⟩⟩

/-! ## Along runs -/

/-- The clients in the order in which they were accepted, and in which they were handed over. -/
def Master.accepted (m : Master) : List Pgsocket := m.clients.reverse
def Master.handed (m : Master) : List Pgsocket := m.ledger.sent.reverse

/-- The two queues as one: who arrived, waits, was handed over, or was turned away. -/
def Master.fifo (m : Master) : Fifo Pgsocket := m.ledger.fifo

/-- What a step does to the clients. -/
structure InOrder (m m' : Master) (l : Label) : Prop where
  refines : Fifo.Steps jobQlen m.fifo m'.fifo
  /-- a client leaves the queue only by being sent in this step -/
  left : ∀ c ∈ m.queue, c ∉ m'.queue → c ∈ m'.handed ∧ c ∉ m.handed
  /-- a client is closed without having been sent only as it arrives, when no idle worker takes it
      and the queue is full -/
  refused : ∀ c ∈ m'.clients, .close c ∈ m'.trace → .close c ∉ m.trace → c ∉ m'.handed →
    ∃ env ev evs, l = .handle env ∧ m.batch = ev :: evs ∧ Untaken m env ev c ∧
      m.jobs.size = jobQlen

theorem mem_handed : c ∈ m.handed ↔ c ∈ m.ledger.sent := List.mem_reverse

theorem mem_ledger_closed : c ∈ m.ledger.closed ↔ c ∈ m.clients ∧ .close c ∈ m.trace := by
  simp only [Master.ledger, List.mem_filter, List.mem_filterMap, decide_eq_true_eq]
  constructor
  · rintro ⟨⟨a, ha, he⟩, hc⟩
    cases a <;> simp only [Act.closedFd, Option.some.injEq, reduceCtorEq] at he
    exact ⟨hc, he ▸ ha⟩
  · rintro ⟨hc, h⟩
    exact ⟨⟨_, h, rfl⟩, hc⟩

/-- No client is queued while workers are idle, and the record of clients is in order. -/
structure Master.Ordered (m : Master) : Prop where
  exclusive : Exclusive m
  fair : m.fifo.Fair

theorem Step.inOrder {l : Label} (hs : Step m l m') (ht : Table m) (hn : Names m)
    (ho : m.Ordered) : InOrder m m' l ∧ m'.Ordered := by
  have hsame : ∀ {d s evs}, InOrder m { m with
      workerDied := d, shutdownRequested := s, batch := evs } l ∧
      Master.Ordered { m with workerDied := d, shutdownRequested := s, batch := evs } :=
    ⟨⟨.refl, fun c hc hno => absurd hc hno, fun c _ hc hno => absurd hc hno⟩, ho.exclusive, ho.fair⟩
  cases hs with
  | wait _ _ _ | sigusr1 | sigterm => exact hsame
  | @handle env ev evs hb hh hf =>
    obtain ⟨hd, hx, hu⟩ := handleEvent_dispatched (m := { m with batch := evs }) (ht.tail hb)
      (hn.tail evs) ho.exclusive (ht.head hb) ⟨hf.ipc, hf.client⟩ hh
    have hsteps : Fifo.Steps jobQlen m.fifo (handleEvent { m with batch := evs } env ev).fifo :=
      hd.steps (by decide) hn.ledger_wf ho.fair
    refine ⟨⟨hsteps, fun c hc hno => ?_, fun c hc hcl hno hsent => ?_⟩, hx, hsteps.fair ho.fair⟩
    · exact ⟨mem_handed.2 (hd.left hc hno), ho.fair.not_served hc⟩
    · rw [mem_handed] at hsent
      obtain ⟨hnew, -, hfull⟩ := hd.refused (fun h => hno (mem_ledger_closed.1 h).2)
        (mem_ledger_closed.2 ⟨hc, hcl⟩) hsent
      obtain ⟨h1, h2, h3, h4⟩ := hu c hc hnew hsent
      exact ⟨env, ev, evs, rfl, hb, ⟨h1, ⟨h2.ready, h2.valid, h2.fresh⟩, h3, h4⟩,
        length_queue.symm.trans hfull⟩

theorem startup_fifo (cfg : Setup) : (startup cfg).fifo = .empty := by
  have hst := startup_started cfg
  have hq : (startup cfg).queue = [] := by simp [Master.queue, hst.jobs]
  have hc := hst.clients
  have hs : (startup cfg).trace.filterMap Act.sentClient = [] := hst.filterMap_trace fun _ => rfl
  have hcl : (startup cfg).trace.filterMap Act.closedFd = [] := hst.filterMap_trace fun _ => rfl
  simp [Master.fifo, Ledger.fifo, Ledger.refused, Master.ledger, hq, hc, hs, hcl, Fifo.empty]

theorem startup_ordered (cfg : Setup) : (startup cfg).Ordered where
  exclusive h := by
    rw [(startup_started cfg).jobs] at h
    cases h
  fair := startup_fifo cfg ▸ Fifo.empty_fair

/-- **The two queues are one bounded first-in first-out queue**: clients are handed over in the order
    in which they were accepted, and at most once; one leaves the queue only by being sent, and is
    turned away only when it arrives to no idle worker and a full queue. -/
theorem dispatch_refines_fifo {cfg : Setup} {h : List (Master × Label)}
    (hr : Run Step (startup cfg) h m) :
    Fifo.Steps jobQlen .empty m.fifo ∧ m.handed.Sublist m.accepted ∧ m.handed.Nodup ∧
      Meets (fun m l => ∀ m', Step m l m' → InOrder m m' l) h := by
  have key : Fifo.Steps jobQlen .empty m.fifo ∧ (Table m ∧ Names m ∧ m.Ordered) ∧
      Meets (fun m l => ∀ m', Step m l m' → InOrder m m' l) h := by
    induction hr with
    | nil =>
      refine ⟨?_, ⟨startup_table cfg, startup_names cfg, startup_ordered cfg⟩, meets_nil _⟩
      rw [startup_fifo]
    | snoc hr hs ih =>
      obtain ⟨h1, ⟨ht, hn, ho⟩, h3⟩ := ih
      obtain ⟨hin, ho'⟩ := hs.inOrder ht hn ho
      exact ⟨h1.trans hin.refines, ⟨hs.table ht, hs.names ht hn, ho'⟩,
        (meets_cons _).2 ⟨fun m' hs' => (hs'.inOrder ht hn ho).1, h3⟩⟩
  obtain ⟨h1, ⟨-, -, ho⟩, h3⟩ := key
  exact ⟨h1, ho.fair.served_sublist, ho.fair.served_nodup, h3⟩

/-- Client 10 waits in the queue for worker 20. -/
theorem queued_client_in_order : ∃ h m, Run Step (startup smallSetup) h m ∧ m.accepted = [10] ∧
    m.handed = [10] ∧ Fifo.Steps jobQlen .empty m.fifo := by
  have hexec : (execs next (startup smallSetup) queuedClientRun).any (fun m =>
      m.accepted = [10] ∧ m.handed = [10]) = true := by decide
  obtain ⟨m, ⟨h, hr⟩, hp⟩ := exists_reach_of_execs (fun _ _ _ => step_of_next) hexec
  obtain ⟨h1, h2⟩ := of_decide_eq_true hp
  exact ⟨h, m, hr, h1, h2, (dispatch_refines_fifo hr).1⟩

end Rustica
