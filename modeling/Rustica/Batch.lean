/-
  Which connection an event is handled against.

  `main_loop` fetches a batch of events with the addresses of their slots, and looks at a slot again
  only when its event is handled.  `Tracked` remembers what the slots held when the batch was
  fetched; the code does not.  The events are handled right (`EventsOwned`) as long as no backend is
  accepted into a slot whose event is still pending.
-/
import Rustica.Bounds

namespace Rustica

open Exec

variable {m m' : Master} {k : ℤ} {env : Env} {ev : WaitEvent} {b c fd : Pgsocket}
  {events : Events}

/-! ## The slots' connections -/

/-- The slot is free, or holds what it held before. -/
def Socket.Kept (s s' : Socket) : Prop := s'.type ≠ .unset → s'.type = s.type ∧ s'.fd = s.fd

theorem Socket.Kept.refl (s : Socket) : s.Kept s := fun _ => ⟨rfl, rfl⟩

theorem Socket.Kept.trans {s s' s'' : Socket} (h : s.Kept s') (h' : s'.Kept s'') : s.Kept s'' := by
  intro hne
  obtain ⟨h1, h2⟩ := h' hne
  rw [h1] at hne
  obtain ⟨h3, h4⟩ := h hne
  exact ⟨h1.trans h3, h2.trans h4⟩

/-- No slot holds anything new. -/
def KeepsSlots (m m' : Master) : Prop := ∀ k, (m.sockets k).Kept (m'.sockets k)

theorem KeepsSlots.of_eq (h : m'.sockets = m.sockets) : KeepsSlots m m' := by
  intro k
  rw [h]; exact .refl _

theorem KeepsSlots.trans {m'' : Master} (h : KeepsSlots m m') (h' : KeepsSlots m' m'') :
    KeepsSlots m m'' := fun k => (h k).trans (h' k)

theorem KeepsSlots.setSocket {s : Socket} (h : (m.sockets k).Kept s) :
    KeepsSlots m (m.setSocket k s) := by
  intro j
  by_cases hj : j = k
  · subst hj
    rw [Master.setSocket_self]; exact h
  · rw [m.setSocket_of_ne _ hj]; exact .refl _

theorem KeepsSlots.closeSocket (m : Master) (k : ℤ) : KeepsSlots m (m.closeSocket k) := by
  intro j
  by_cases hj : j = k
  · subst hj
    rw [Master.closeSocket_self]; exact fun h => absurd rfl h
  · rw [m.closeSocket_of_ne hj]; exact .refl _

theorem Incomplete.keepsSlots (h : Incomplete m env k events m') : KeepsSlots m m' := by
  cases h with
  | quiet | deaf _ _ => exact .of_eq rfl
  | closed => exact .closeSocket m k
  | recvFailed =>
    exact (KeepsSlots.closeSocket m k).trans (.setSocket fun h => absurd rfl h)
  | badHello bytes => exact .closeSocket (m.emit _) k
  | piece bytes w _ _ =>
    exact KeepsSlots.setSocket (m := m.emit (.received (m.sockets k).fd bytes)) fun _ => ⟨rfl, rfl⟩

theorem helloRead_keepsSlots : KeepsSlots m (helloRead m k) :=
  KeepsSlots.setSocket (m := m.emit (.hello (m.sockets k).fd)) fun _ => ⟨rfl, rfl⟩

theorem Greeted.keepsSlots (h : Greeted m env k m') : KeepsSlots m m' := by
  have hread : KeepsSlots m (helloRead m k) := helloRead_keepsSlots
  cases h with
  | idle _ => exact hread.trans (.of_eq rfl)
  | sent _ _ =>
    refine hread.trans (.of_eq ?_)
    unfold resumeFrontends
    split
    · rw [modifyFrontends_sockets]; rfl
    · rfl
  | failed _ _ =>
    exact hread.trans (.closeSocket ((helloRead m k).emit (.sendFailed _ m.jobs.front)) k)

theorem onBackend_keepsSlots : KeepsSlots m (onBackend m env k events) := by
  rcases onBackend_cases m env k events with ⟨-, h⟩ | ⟨-, bytes, -, h⟩
  · exact h.keepsSlots
  · have hstate : KeepsSlots m (helloState m k bytes) :=
      KeepsSlots.setSocket (m := m.emit (.received (m.sockets k).fd _)) fun _ => ⟨rfl, rfl⟩
    rw [h]
    exact hstate.trans (onHello_cases _ env k).keepsSlots

theorem onFrontend_keepsSlots (ht : Table m) (hf : Fresh m env) :
    KeepsSlots m (onFrontend m env events) := by
  have hrule := onFrontend_rule events (I := KeepsSlots m) ht hf (.of_eq rfl)
    (fun _ _ h _ _ => h.trans (.of_eq rfl)) fun m' _ _ _ _ h =>
      h.trans (.closeSocket (m'.popIdle.emit (.sendFailed _ env.acceptClient)) m'.idle.front)
  rcases hrule with ⟨-, h⟩ | ⟨-, m', -, -, h, hs⟩
  · rw [h]; exact .of_eq rfl
  · refine h.trans ?_
    generalize onFrontend m env events = m₁ at hs
    cases hs with
    | handed _ _ _ => exact .of_eq rfl
    | kept _ => exact .of_eq (by rw [enqueue_sockets, spawnWorker_sockets])

/-! ## The batch and the slots at its fetch -/

/-- The master, and what its slots held when the batch was fetched. -/
structure Tracked where
  master : Master
  fetched : ℤ → Socket

/-- A wait fetches the events and the addresses of their slots. -/
def Tracked.after (t : Tracked) (m' : Master) : Label → Tracked
  | .wait _ => ⟨m', t.master.sockets⟩
  | _ => ⟨m', t.fetched⟩

inductive Tracked.Step : Tracked → Label → Tracked → Prop
  | step {t l m'} : Rustica.Step t.master l m' → Tracked.Step t l (t.after m' l)

def Tracked.init (cfg : Setup) : Tracked := ⟨startup cfg, (startup cfg).sockets⟩

/-- Tracking does not restrict the master. -/
theorem Run.tracked {cfg : Setup} {h : List (Master × Label)} (hr : Run Step (startup cfg) h m) :
    ∃ h' t, Run Tracked.Step (.init cfg) h' t ∧ t.master = m ∧
      h'.map (fun p => (p.1.master, p.2)) = h := by
  induction hr with
  | nil => exact ⟨[], _, .nil, rfl, rfl⟩
  | @snoc h m l m' _ hs ih =>
    obtain ⟨h', t, hr', rfl, rfl⟩ := ih
    refine ⟨_, _, .snoc hr' (.step hs), ?_, rfl⟩
    cases l <;> rfl

/-- Every pending event's slot is free or still holds the connection that raised the event. -/
def EventsOwned (t : Tracked) : Prop :=
  ∀ ev ∈ t.master.batch, (t.fetched ev.userData).Kept (t.master.sockets ev.userData)

/-- The step handles its event against the connection that raised it, if against any. -/
def HandlesOwn (t : Tracked) : Label → Prop
  | .handle _ => ∀ ev evs, t.master.batch = ev :: evs →
      (t.fetched ev.userData).Kept (t.master.sockets ev.userData)
  | _ => True

/-- The event makes `on_backend_connect` accept a connection into a slot for which one of the events
    `evs`, later in the batch, is still pending. -/
structure PendingReuse (m : Master) (env : Env) (ev : WaitEvent) (evs : List WaitEvent) : Prop where
  running : ev.events.latchSet = true → m.shutdownRequested = false
  ipc : (m.sockets ev.userData).type = .ipc
  ready : ev.events.readable = true
  valid : env.acceptIpc ≠ pgInvalidSocket
  room : m.rmWaitSet.used ≠ m.rmWaitSet.waitSet.neventsSpace
  pending : nextWaitEventPos m.rmWaitSet ∈ evs.map WaitEvent.userData

/-- The step accepts no backend connection into the slot of a pending event. -/
def NoPendingReuse (t : Tracked) : Label → Prop
  | .handle env => ∀ ev evs, t.master.batch = ev :: evs → ¬ PendingReuse t.master env ev evs
  | _ => True

/-- What the slots held at the fetch are the listeners and accepted backends. -/
structure Tracked.Inv (t : Tracked) : Prop where
  table : Table t.master
  names : Names t.master
  fetched : ∀ k, (t.fetched k).type = .backend → (t.fetched k).fd ∈ t.master.backends

variable {t t' : Tracked} {l : Label}

@[simp] theorem Tracked.after_master : (t.after m' l).master = m' := by cases l <;> rfl

/-- The records only grow. -/
theorem Step.backends_sub {l : Label} (hs : Step m l m') (ht : Table m) (hb : b ∈ m.backends) :
    b ∈ m'.backends := by
  cases hs with
  | @handle env ev evs hba hh hf =>
    have hp := handleEvent_prims (ht.tail hba) (ht.head hba) ⟨hf.ipc, hf.client⟩ hh
    exact (hp.trace.sublist.filterMap _).subset hb
  | wait _ _ _ | sigusr1 | sigterm => exact hb

theorem Tracked.Step.inv (hs : Tracked.Step t l t') (hi : t.Inv) : t'.Inv := by
  obtain ⟨hs⟩ := hs
  refine ⟨by simpa using hs.table hi.table, by simpa using hs.names hi.table hi.names, ?_⟩
  intro k hk
  rw [after_master]
  refine hs.backends_sub hi.table ?_
  cases l with
  | wait evs => exact hi.names.backend k hk
  | _ => exact hi.fetched k hk

/-! ## What a handler does to the pending events -/

/-- A connection accepted into a slot. -/
theorem onBackendConnect_open (ht : Table m) (hr : events.readable = true)
    (hc : env.acceptIpc ≠ pgInvalidSocket)
    (hroom : m.rmWaitSet.used ≠ m.rmWaitSet.waitSet.neventsSpace) :
    onBackendConnect m env events =
      (m.emit (.acceptBackend env.acceptIpc)).openSocket .backend env.acceptIpc backendEvents := by
  rw [onBackendConnect_accept ht hr hc]
  exact if_neg hroom

/-- Only the slot that an accepted connection goes to is changed. -/
theorem onBackendConnect_frame (ht : Table m) (hk : m.inRange k)
    (h : events.readable = true → env.acceptIpc ≠ pgInvalidSocket →
      m.rmWaitSet.used ≠ m.rmWaitSet.waitSet.neventsSpace → k ≠ nextWaitEventPos m.rmWaitSet) :
    (onBackendConnect m env events).sockets k = m.sockets k := by
  refine onBackendConnect_rule (I := fun m' => m'.sockets k = m.sockets k) events ht rfl ?_ ?_
  · exact fun hr hc hroom => Function.update_of_ne (h hr hc hroom) _ _
  · intro _ _ hfull
    refine Function.update_of_ne ?_ _ _
    show k ≠ nextWaitEventPos m.rmWaitSet
    rw [next_of_full hfull]
    have := hk.1
    omega

/-- **Only an accept puts something new into a slot**, and never one of the slots `evs` unless it
    reuses a pending one. -/
theorem handleEvent_kept {evs : List WaitEvent} (ht : Table m) (hk : m.inRange ev.userData)
    (hf : Fresh m env) (hh : m.halted = false) (hevs : ∀ e ∈ evs, m.inRange e.userData)
    (hno : ¬ PendingReuse m env ev evs) :
    ∀ e ∈ evs, (m.sockets e.userData).Kept ((handleEvent m env ev).sockets e.userData) := by
  refine handleEvent_rule (I := fun m' => ∀ e ∈ evs,
    (m.sockets e.userData).Kept (m'.sockets e.userData)) ht hk hf hh (fun _ _ e _ => .refl _) ?_
  rintro hrun m₁ - hl ht₁ hf₁ e he
  obtain ⟨-, n, hs, d, rfl⟩ := hl
  unfold handler
  cases hty : (m.sockets ev.userData).type with
  | unset => exact .refl _
  | frontend => exact onFrontend_keepsSlots ht₁ hf₁ _
  | backend => exact onBackend_keepsSlots _
  | ipc =>
    dsimp only
    rw [onBackendConnect_frame ht₁ (hevs e he)]
    · exact .refl _
    · intro hr hc hroom heq
      exact hno ⟨hrun, hty, hr, hc, hroom, List.mem_map.2 ⟨e, he, heq⟩⟩

/-- The connection accepted into the slot of a pending event is not the one that raised it. -/
theorem PendingReuse.not_kept {evs : List WaitEvent} (h : PendingReuse m env ev evs)
    (ht : Table m) (hk : m.inRange ev.userData) (hf : Fresh m env) (hh : m.halted = false)
    {fetched : ℤ → Socket} (hfd : ∀ k, (fetched k).type = .backend → (fetched k).fd ∈ m.backends) :
    ∃ e ∈ evs, ¬ (fetched e.userData).Kept ((handleEvent m env ev).sockets e.userData) := by
  obtain ⟨e, he, hnext⟩ := List.mem_map.1 h.pending
  refine ⟨e, he, handleEvent_rule (I := fun m' =>
    ¬ (fetched e.userData).Kept (m'.sockets e.userData)) ht hk hf hh (fun h1 h2 => ?_) ?_⟩
  · have := h.running h1
    simp [h2] at this
  · rintro - m₁ - hl ht₁ hf₁ hkept
    obtain ⟨-, n, hs, d, rfl⟩ := hl
    simp only [handler, h.ipc] at hkept
    rw [onBackendConnect_open ht₁ h.ready h.valid h.room, hnext] at hkept
    obtain ⟨h1, h2⟩ := hkept (by rw [openSocket_sockets]; simp [Master.emit])
    rw [openSocket_sockets] at h1 h2
    simp only [Master.emit, Function.update_self] at h1 h2
    exact hf.ipc (backends_sub_opened (h2 ▸ hfd _ h1.symm))

theorem Prim.batch_eq (h : Prim m m') : m'.batch = m.batch := by
  cases h with
  | frontends p =>
    obtain ⟨s, hs⟩ := modifyFrontends_rest { m with frontendPaused := p } (frontendEvents p)
    rw [hs]
  | spawn env =>
    obtain ⟨seq, n, hs, he⟩ := spawnWorker_rest m env
    rw [he]
  | _ => rfl

theorem Prims.batch_eq (h : Prims m m') : m'.batch = m.batch := by
  induction h with
  | refl => rfl
  | tail _ h ih => exact h.batch_eq.trans ih

/-! ## Along runs -/

theorem EventsOwned.handlesOwn (h : EventsOwned t) (l : Label) : HandlesOwn t l := by
  cases l with
  | handle env => exact fun ev evs hb => h ev (by simp [hb])
  | _ => trivial

theorem Tracked.Step.owned_iff (hs : Tracked.Step t l t') (hi : t.Inv) (ho : EventsOwned t) :
    EventsOwned t' ↔ NoPendingReuse t l := by
  obtain ⟨hs⟩ := hs
  cases hs with
  | wait _ _ _ => exact ⟨fun _ => trivial, fun _ ev _ => .refl _⟩
  | sigusr1 | sigterm => exact ⟨fun _ => trivial, fun _ => ho⟩
  | @handle env ev evs hb hh hf =>
    have ht := hi.table.tail hb
    have hk := hi.table.head hb
    have hf' : Fresh { t.master with batch := evs } env := ⟨hf.ipc, hf.client⟩
    have hbatch : (handleEvent { t.master with batch := evs } env ev).batch = evs :=
      Prims.batch_eq (handleEvent_prims ht hk hf' hh)
    have hsame : PendingReuse { t.master with batch := evs } env ev evs ↔
        PendingReuse t.master env ev evs :=
      ⟨fun h => ⟨h.running, h.ipc, h.ready, h.valid, h.room, h.pending⟩,
        fun h => ⟨h.running, h.ipc, h.ready, h.valid, h.room, h.pending⟩⟩
    constructor
    · rintro ho' ev' evs' hb' hreuse
      cases hb.symm.trans hb'
      obtain ⟨e, he, hnot⟩ := (hsame.2 hreuse).not_kept ht hk hf' hh hi.fetched
      refine hnot (ho' e ?_)
      rw [after_master, hbatch]; exact he
    · intro hno e he
      rw [after_master, hbatch] at he
      rw [after_master]
      refine (ho e (by simp [hb, he])).trans ?_
      exact handleEvent_kept ht hk hf' hh ht.batch (fun h => hno ev evs hb (hsame.1 h)) e he

/-- **Every event is handled against the connection that raised it exactly along the runs that never
    accept a backend into the slot of a pending event.** -/
theorem events_owned_iff_no_pending_reuse {cfg : Setup} {h : List (Tracked × Label)}
    (hr : Run Tracked.Step (.init cfg) h t) :
    (Always EventsOwned h t ∧ Meets HandlesOwn h) ↔ Meets NoPendingReuse h := by
  have hst := startup_started cfg
  have hiff : Always EventsOwned h t ↔ Meets NoPendingReuse h := by
    refine hr.always_iff_meets (I := Tracked.Inv)
      ⟨startup_table cfg, startup_names cfg, fun k hk => absurd hk (hst.backend k)⟩ ?_ ?_ ?_
    · intro ev hev
      have hb : (startup cfg).batch = [] := hst.batch
      simp [Tracked.init, hb] at hev
    · exact fun t l t' hi ho hC hs => ⟨hs.inv hi, (hs.owned_iff hi ho).2 hC⟩
    · exact fun t l t' hi ho hC hs ho' => hC ((hs.owned_iff hi ho).1 ho')
  rw [← hiff, and_iff_left_iff_imp]
  exact fun hA p hp => (hA.2 p hp).handlesOwn p.2

/-- Workers 20 and 21 connect and worker 20 says hello; then client 10 arrives, worker 22 connects, and
    worker 20 hangs up. -/
def reusedSlotRun : List Label :=
  [.wait [readable 1], .handle { acceptIpc := 20 }, .wait [readable 1], .handle { acceptIpc := 21 },
    .wait [readable 3], .handle { recv := some (backendHello ++ [0, 0, 0, 0]) },
    .wait [readable 2, readable 1, ⟨3, wlSocketClosed, 3⟩],
    .handle { acceptClient := 10, register := true }, .handle { acceptIpc := 22 }]

def Tracked.next (t : Tracked) (l : Label) : Option Tracked :=
  (Rustica.next t.master l).map fun m' => t.after m' l

theorem Tracked.step_of_next (h : t.next l = some t') : Tracked.Step t l t' := by
  obtain ⟨m', hm, rfl⟩ := Option.map_eq_some_iff.1 h
  exact .step (Rustica.step_of_next hm)

/-- The failed `sendmsg` to worker 20 frees its slot, worker 22 is put there, and the end of worker
    20's connection closes worker 22's. -/
theorem reused_slot_closed : ∃ t, Reach Tracked.Step (.init smallSetup) t ∧
    t.master.batch = [⟨3, wlSocketClosed, 3⟩] ∧ (t.fetched 3).fd = 20 ∧
    (t.master.sockets 3).type = .backend ∧ (t.master.sockets 3).fd = 22 ∧
    .close 22 ∈ (handleEvent t.master {} ⟨3, wlSocketClosed, 3⟩).trace ∧ ¬ HandlesOwn t (.handle {}) := by
  have hexec : (execs Tracked.next (.init smallSetup) reusedSlotRun).any (fun t =>
      t.master.batch = [⟨3, wlSocketClosed, 3⟩] ∧ (t.fetched 3).fd = 20 ∧
      (t.master.sockets 3).type = .backend ∧ (t.master.sockets 3).fd = 22 ∧
      .close 22 ∈ (handleEvent t.master {} ⟨3, wlSocketClosed, 3⟩).trace) = true := by decide
  obtain ⟨t, hr, hp⟩ := exists_reach_of_execs (fun _ _ _ => Tracked.step_of_next) hexec
  obtain ⟨h1, h2, h3, h4, h5⟩ := of_decide_eq_true hp
  refine ⟨t, hr, h1, h2, h3, h4, h5, fun h => ?_⟩
  obtain ⟨-, hfd⟩ := h _ [] h1 (by rw [h3]; decide)
  rw [h2, h4] at hfd
  exact absurd hfd (by decide)

/-- A worker connects while the event of a listener is pending. -/
theorem free_slot_owned : ∃ h t, Run Tracked.Step (.init smallSetup) h t ∧
    t.master.backends = [20] ∧ t.master.batch = [readable 2] ∧ Always EventsOwned h t := by
  have h1 : Tracked.Step (.init smallSetup) (.wait [readable 1, readable 2]) _ :=
    .step (.wait (by decide) (by decide) (by decide))
  have h2 : Tracked.Step ⟨{ startup smallSetup with batch := [readable 1, readable 2] },
      (startup smallSetup).sockets⟩ (.handle { acceptIpc := 20 }) _ :=
    .step (.handle rfl (by decide) (by decide))
  have hr := Run.snoc (.snoc .nil h1) h2
  refine ⟨_, _, hr, by decide, by decide, ((events_owned_iff_no_pending_reuse hr).2 ?_).1⟩
  simp only [meets_cons, meets_nil, and_true, NoPendingReuse]
  rintro ev evs he hreuse
  cases he
  exact absurd hreuse.pending (by decide)

end Rustica
