/-
  Who a descriptor belongs to.

  Descriptors are named apart by the calls that return them, so in every reachable state the
  connection of a slot is an accepted backend, no two slots hold the same one, and no backend is a
  client.
-/
import Rustica.Handlers

namespace Rustica

open Exec

variable {m m' : Master} {k : ℤ} {env : Env} {b c fd : Pgsocket} {a : Act} {events : Events}

/-- The clients in `job_queue`, the next one first. -/
def Master.queue (m : Master) : List Pgsocket := m.jobs.toList jobQlen

structure Names (m : Master) : Prop where
  backend : ∀ k, (m.sockets k).type = .backend → (m.sockets k).fd ∈ m.backends
  distinct : ∀ {j k}, Live m j → Live m k → (m.sockets j).fd = (m.sockets k).fd → j = k
  apart : ∀ b ∈ m.backends, b ∉ m.clients
  about : ∀ {b a}, a ∈ m.trace → About b a → b ∈ m.backends
  closed : ∀ fd, .close fd ∈ m.trace → fd ∈ m.opened
  queue : ∀ c ∈ m.queue, c ∈ m.clients
  jobs : m.jobs.Wf jobQlen
  jobs_le : m.jobs.size ≤ jobQlen

theorem clients_sub_opened (hc : c ∈ m.clients) : c ∈ m.opened := by
  simp only [Master.clients, Master.opened, List.mem_filterMap] at hc ⊢
  obtain ⟨a, ha, he⟩ := hc
  refine ⟨a, ha, ?_⟩
  cases a <;> simp_all [Act.opens]

theorem backends_sub_opened (hb : b ∈ m.backends) : b ∈ m.opened := by
  simp only [Master.backends, Master.opened, List.mem_filterMap] at hb ⊢
  obtain ⟨a, ha, he⟩ := hb
  refine ⟨a, ha, ?_⟩
  cases a <;> simp_all [Act.opens]

/-! ## The records after one more act -/

@[simp] theorem emit_sockets : (m.emit a).sockets = m.sockets := rfl
@[simp] theorem emit_trace : (m.emit a).trace = a :: m.trace := rfl

theorem About.emit (h : About b a) : (m.emit a).clients = m.clients ∧
    (m.emit a).backends = m.backends ∧ (m.emit a).opened = m.opened := by
  cases h <;> exact ⟨rfl, rfl, rfl⟩

theorem About.eq (h : About b a) (h' : About c a) : b = c := by
  cases h <;> cases h' <;> rfl

theorem Live.of_emit (hk : Live (m.emit a) k) : Live m k := ⟨hk.range, hk.type⟩

theorem openSocket_sockets {type : SockType} :
    (m.openSocket type fd events).sockets = Function.update m.sockets
      (nextWaitEventPos m.rmWaitSet) { m.sockets (nextWaitEventPos m.rmWaitSet) with
        type, fd, pos := (addWaitEventToSetEx m.rmWaitSet events
          (nextWaitEventPos m.rmWaitSet)).1 } := rfl

theorem openSocket_next {type : SockType} :
    ((m.openSocket type fd events).sockets (nextWaitEventPos m.rmWaitSet)).type = type ∧
      ((m.openSocket type fd events).sockets (nextWaitEventPos m.rmWaitSet)).fd = fd := by
  simp [openSocket_sockets]

namespace Names

/-- What only the records about `b` contribute to is nothing where `b` was never accepted. -/
theorem of_trace {α : Type} (hm : Names m) (hb : b ∉ m.backends) (f : List Act → α)
    (hf : ∀ a l, ¬ About b a → f (a :: l) = f l) : f m.trace = f [] := by
  have hno : ∀ a ∈ m.trace, ¬ About b a := fun a ha h => hb (hm.about ha h)
  generalize m.trace = l at hno
  induction l with
  | nil => rfl
  | cons a l ih =>
    rw [hf a l (hno a List.mem_cons_self)]
    exact ih fun a ha => hno a (List.mem_cons_of_mem _ ha)

theorem backend_not_client (hm : Names m) (hk : (m.sockets k).type = .backend) :
    (m.sockets k).fd ∉ m.clients := hm.apart _ (hm.backend k hk)

theorem noted (hm : Names m) (hk : Live m k) (ha : About (m.sockets k).fd a) :
    Names (m.emit a) := by
  obtain ⟨hcl, hbk, hop⟩ := About.emit (m := m) ha
  refine ⟨hbk ▸ hm.backend, fun hj hk => hm.distinct hj.of_emit hk.of_emit, ?_, ?_, ?_, ?_,
    hm.jobs, hm.jobs_le⟩
  · rw [hbk, hcl]; exact hm.apart
  · intro b' a' ha' habout
    rw [hbk]
    rcases List.mem_cons.1 ha' with rfl | ha'
    · exact ha.eq habout ▸ hm.backend k hk.type
    · exact hm.about ha' habout
  · intro fd hfd
    rw [hop]
    rcases List.mem_cons.1 hfd with h | h
    · cases ha <;> cases h
    · exact hm.closed fd h
  · rw [hcl]; exact hm.queue

theorem accepted (hm : Names m) (hc : c ∉ m.opened) : Names (m.emit (.acceptClient c)) where
  backend := hm.backend
  distinct hj hk := hm.distinct hj.of_emit hk.of_emit
  apart b hb := by
    have hb' : b ∈ m.backends := hb
    change b ∉ c :: m.clients
    rw [List.mem_cons, not_or]
    exact ⟨fun h => hc (h ▸ backends_sub_opened hb'), hm.apart b hb'⟩
  about ha habout := by
    rcases List.mem_cons.1 ha with rfl | ha
    · cases habout
    · exact hm.about ha habout
  closed fd hfd := by
    rcases List.mem_cons.1 hfd with h | h
    · cases h
    · exact List.mem_cons_of_mem _ (hm.closed fd h)
  queue c' hc' := List.mem_cons_of_mem _ (hm.queue c' hc')
  jobs := hm.jobs
  jobs_le := hm.jobs_le

/-- Noting that a known descriptor is closed. -/
theorem close (hm : Names m) (hfd : fd ∈ m.opened) : Names (m.emit (.close fd)) where
  backend := hm.backend
  distinct hj hk := hm.distinct hj.of_emit hk.of_emit
  apart := hm.apart
  about ha habout := by
    rcases List.mem_cons.1 ha with rfl | ha
    · cases habout
    · exact hm.about ha habout
  closed fd' h := by
    rcases List.mem_cons.1 h with h | h
    · cases h; exact hfd
    · exact hm.closed fd' h
  queue := hm.queue
  jobs := hm.jobs
  jobs_le := hm.jobs_le

/-- A slot keeps or loses its connection. -/
theorem setSocket (hm : Names m) {s : Socket} (hs : s.type = .backend →
    (m.sockets k).type = .backend ∧ s.fd = (m.sockets k).fd) : Names (m.setSocket k s) := by
  have hold : ∀ {j}, ((m.setSocket k s).sockets j).type = .backend →
      (m.sockets j).type = .backend ∧ ((m.setSocket k s).sockets j).fd = (m.sockets j).fd := by
    intro j hj
    by_cases hjk : j = k
    · subst hjk
      rw [Master.setSocket_self] at hj ⊢
      exact hs hj
    · simp only [Master.setSocket, Function.update_of_ne hjk] at hj ⊢
      exact ⟨hj, trivial⟩
  refine ⟨fun j hj => ?_, fun hi hj h => ?_, hm.apart, hm.about, hm.closed, hm.queue, hm.jobs,
    hm.jobs_le⟩
  · rw [(hold hj).2]; exact hm.backend j (hold hj).1
  · rw [(hold hi.type).2, (hold hj.type).2] at h
    exact hm.distinct ⟨hi.range, (hold hi.type).1⟩ ⟨hj.range, (hold hj.type).1⟩ h

theorem closeSocket (hm : Names m) (hk : (m.sockets k).type = .backend) :
    Names (m.closeSocket k) := by
  have hfd := backends_sub_opened (hm.backend k hk)
  have hset : Names { m with rmWaitSet := deleteWaitEventEx m.rmWaitSet (m.sockets k).pos } :=
    { hm with distinct := fun hi hj => hm.distinct ⟨hi.range, hi.type⟩ ⟨hj.range, hj.type⟩ }
  exact (hset.close hfd).setSocket (k := k) (s := {}) (by simp)

theorem opened (hm : Names m) (hb : b ∉ m.opened) :
    Names ((m.emit (.acceptBackend b)).openSocket .backend b events) := by
  have hfd : ∀ {j}, (((m.emit (.acceptBackend b)).openSocket .backend b events).sockets j).type =
      .backend → ((j = nextWaitEventPos m.rmWaitSet ∧ (((m.emit (.acceptBackend b)).openSocket
        .backend b events).sockets j).fd = b) ∨ ((m.sockets j).type = .backend ∧
          (((m.emit (.acceptBackend b)).openSocket .backend b events).sockets j).fd =
            (m.sockets j).fd)) := by
    intro j hj
    rw [openSocket_sockets] at hj ⊢
    by_cases hjn : j = nextWaitEventPos m.rmWaitSet
    · subst hjn; exact .inl ⟨rfl, by simp [Master.emit]⟩
    · have hjn' : j ≠ nextWaitEventPos (m.emit (.acceptBackend b)).rmWaitSet := hjn
      rw [Function.update_of_ne hjn'] at hj ⊢
      exact .inr ⟨hj, rfl⟩
  have hne : ∀ {j}, (m.sockets j).type = .backend → (m.sockets j).fd ≠ b := by
    intro j hj he
    exact hb (he ▸ backends_sub_opened (hm.backend j hj))
  refine ⟨fun j hj => ?_, fun {i j} hi hj h => ?_, ?_, ?_, ?_, hm.queue, hm.jobs, hm.jobs_le⟩
  · change _ ∈ b :: m.backends
    rcases hfd hj with ⟨-, h⟩ | ⟨hj, h⟩
    · rw [h]; exact List.mem_cons_self
    · rw [h]; exact List.mem_cons_of_mem _ (hm.backend j hj)
  · rcases hfd hi.type with ⟨hi1, hi2⟩ | ⟨hi1, hi2⟩ <;> rcases hfd hj.type with ⟨hj1, hj2⟩ | ⟨hj1, hj2⟩
    · rw [hi1, hj1]
    · exact absurd (hj2.symm.trans (h.symm.trans hi2)) (hne hj1)
    · exact absurd (hi2.symm.trans (h.trans hj2)) (hne hi1)
    · exact hm.distinct ⟨hi.range, hi1⟩ ⟨hj.range, hj1⟩ (hi2.symm.trans (h.trans hj2))
  · intro b' hb'
    change b' ∉ m.clients
    rcases List.mem_cons.1 (show b' ∈ b :: m.backends from hb') with rfl | h
    · exact fun hc => hb (clients_sub_opened hc)
    · exact hm.apart b' h
  · intro b' a ha habout
    change b' ∈ b :: m.backends
    rcases List.mem_cons.1 (show a ∈ .acceptBackend b :: m.trace from ha) with rfl | ha
    · cases habout
    · exact List.mem_cons_of_mem _ (hm.about ha habout)
  · intro fd hfd
    rcases List.mem_cons.1 (show .close fd ∈ .acceptBackend b :: m.trace from hfd) with h | h
    · cases h
    · exact List.mem_cons_of_mem _ (hm.closed fd h)

end Names

/-- **Every update keeps the names apart.** -/
theorem Prim.names (h : Prim m m') (hm : Names m) : Names m' := by
  cases h with
  | opened hb _ => exact hm.opened hb
  | overflow hb _ => exact (hm.opened hb).close List.mem_cons_self
  | accepted hc => exact hm.accepted hc
  | noted hk ha => exact hm.noted hk ha
  | dropped hc => exact hm.close (clients_sub_opened hc)
  | closed hk => exact hm.closeSocket hk.type
  | scratch ro w => exact hm.setSocket fun h => ⟨h, rfl⟩
  | frontends p =>
    obtain ⟨s, hs⟩ := modifyFrontends_rest { m with frontendPaused := p } (frontendEvents p)
    rw [hs]
    exact { hm with distinct := fun hi hj => hm.distinct ⟨hi.range, hi.type⟩ ⟨hj.range, hj.type⟩ }
  | pushJob hc hlt =>
    refine { hm with distinct := fun hi hj => hm.distinct ⟨hi.range, hi.type⟩ ⟨hj.range, hj.type⟩,
                     queue := ?_, jobs := hm.jobs.push _, jobs_le := hlt }
    intro c' hc'
    rw [Master.queue, RingBuf.toList_push hm.jobs hlt, List.mem_append, List.mem_singleton] at hc'
    rcases hc' with hc' | rfl
    exacts [hm.queue c' hc', hc]
  | popJob hpos =>
    exact { hm with
      distinct := fun hi hj => hm.distinct ⟨hi.range, hi.type⟩ ⟨hj.range, hj.type⟩
      queue := fun c' hc' => hm.queue c' (RingBuf.mem_of_mem_pop hm.jobs hpos hc')
      jobs := hm.jobs.pop hpos
      jobs_le := (Nat.sub_le _ _).trans hm.jobs_le }
  | spawn env =>
    obtain ⟨seq, n, hs, he⟩ := spawnWorker_rest m env
    rw [he]
    exact { hm with distinct := fun hi hj => hm.distinct ⟨hi.range, hi.type⟩ ⟨hj.range, hj.type⟩ }
  | interest _ _ | popIdle _ | pushIdle _ | reap _ | halt =>
    exact { hm with distinct := fun hi hj => hm.distinct ⟨hi.range, hi.type⟩ ⟨hj.range, hj.type⟩ }

theorem Prims.names (h : Prims m m') (hm : Names m) : Names m' := by
  induction h with
  | refl => exact hm
  | tail _ h ih => exact h.names ih

/-- The names are the same while an event is handled. -/
theorem Names.tail (hm : Names m) (evs : List WaitEvent) : Names { m with batch := evs } :=
  { hm with distinct := fun hi hj => hm.distinct ⟨hi.range, hi.type⟩ ⟨hj.range, hj.type⟩ }

theorem Step.names {l : Label} (hs : Step m l m') (ht : Table m) (hm : Names m) : Names m' := by
  have hrest : ∀ {d s evs}, Names { m with workerDied := d, shutdownRequested := s, batch := evs } :=
    { hm with distinct := fun hi hj => hm.distinct ⟨hi.range, hi.type⟩ ⟨hj.range, hj.type⟩ }
  cases hs with
  | @handle env ev evs hb hh hf =>
    exact Prims.names (handleEvent_prims (ht.tail hb) (ht.head hb) ⟨hf.ipc, hf.client⟩ hh) hrest
  | wait _ _ _ | sigusr1 | sigterm => exact hrest

theorem startupListen_names {type : SockType} (fd : Pgsocket) (hm : Names m)
    (ht : type ≠ .backend) :
    Names (startupListen type m fd) := by
  have hold : ∀ {j}, ((startupListen type m fd).sockets j).type = .backend →
      (startupListen type m fd).sockets j = m.sockets j := by
    intro j hj
    simp only [startupListen, openSocket_sockets] at hj ⊢
    by_cases hjn : j = nextWaitEventPos (m.emit (.listen fd)).rmWaitSet
    · subst hjn; exact absurd (by simpa using hj) ht
    · rw [Function.update_of_ne hjn]; rfl
  refine ⟨fun j hj => ?_, fun hi hj h => ?_, hm.apart, ?_, ?_, hm.queue, hm.jobs, hm.jobs_le⟩
  · have he := hold hj
    rw [he] at hj ⊢; exact hm.backend j hj
  · rw [hold hi.type, hold hj.type] at h
    exact hm.distinct ⟨hi.range, hold hi.type ▸ hi.type⟩ ⟨hj.range, hold hj.type ▸ hj.type⟩ h
  · intro b a ha habout
    rcases List.mem_cons.1 (show a ∈ .listen fd :: m.trace from ha) with rfl | ha
    · cases habout
    · exact hm.about ha habout
  · intro fd' hfd'
    rcases List.mem_cons.1 (show .close fd' ∈ .listen fd :: m.trace from hfd') with h | h
    · cases h
    · exact List.mem_cons_of_mem _ (hm.closed fd' h)

theorem startup_names (cfg : Setup) : Names (startup cfg) := by
  have hlatch : Names (startupLatch cfg) :=
    ⟨fun k hk => absurd hk (by simp [startupLatch_type]),
      fun hk => absurd hk.type (by simp [startupLatch_type]),
      by simp [startupLatch, Master.backends, Master.openSocket, Master.setSocket],
      fun h => absurd h (by simp [startupLatch, Master.openSocket, Master.setSocket]),
      by simp [startupLatch, Master.openSocket, Master.setSocket],
      fun c hc => absurd hc (by simp [Master.queue, startupLatch, Master.openSocket,
        Master.setSocket]),
      RingBuf.wf_empty (by decide), Nat.zero_le _⟩
  refine (startup_rule cfg hlatch fun m type fd _ _ hty hm => startupListen_names fd hm ?_).2
  rcases hty with rfl | rfl <;> simp

/-- **The names are apart in every reachable state.** -/
theorem reach_names {cfg : Setup} (hr : Reach Step (startup cfg) m) : Table m ∧ Names m :=
  hr.inv (I := fun m => Table m ∧ Names m) ⟨startup_table cfg, startup_names cfg⟩
    fun _ _ _ hm hs => ⟨hs.table hm.1, hs.names hm.1 hm.2⟩

end Rustica
