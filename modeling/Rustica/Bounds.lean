/-
  Accesses to the socket table.

  `accesses` lists the slots whose address one round of `main_loop`'s inner loop takes.  The table
  itself is right in every reachable state (`SlotTable`); an access leaves the array only when a
  backend connects while no slot is free: `on_backend_connect` takes `&sockets[-1]` and fills it in
  before it looks at the result of the add.
-/
import Rustica.Names

namespace Rustica

open Exec

/-! ## The slots that are accessed -/

/-- The slots the loop over the idle ring looks at. -/
def popped (env : Env) (sock : Pgsocket) : ℕ → Master → List ℤ
  | 0, _ => []
  | n + 1, m =>
    let k := m.idle.front
    let m := m.popIdle
    if (m.sockets k).type = .backend then
      if env.sendmsg (m.sockets k).fd then [k]
      else k :: popped env sock n ((m.emit (.sendFailed (m.sockets k).fd sock)).closeSocket k)
    else k :: popped env sock n m

/-- The loops that pause and resume the frontend go over all slots. -/
def allSlots (m : Master) : List ℤ := (List.range m.totalSockets).map fun (i : ℕ) => (i : ℤ)

/-- The slots the handlers look at for an event of slot `k`, besides that. -/
def handlerAccesses (m : Master) (env : Env) (k : ℤ) (events : Events) : List ℤ :=
  match (m.sockets k).type with
  | .unset => []
  | .ipc => if events.readable ∧ env.acceptIpc ≠ pgInvalidSocket then
      [nextWaitEventPos m.rmWaitSet] else []
  | .frontend => if events.readable ∧ env.acceptClient ≠ pgInvalidSocket then
      popped env env.acceptClient m.idle.size (m.emit (.acceptClient env.acceptClient)) ++
        allSlots m else []
  | .backend => allSlots m

/-- The accesses of one round of `main_loop`'s inner loop. -/
def accesses (m : Master) (env : Env) (ev : WaitEvent) : List ℤ :=
  let m := onLatch m env ev.events
  ev.userData :: if m.halted then [] else handlerAccesses m env ev.userData ev.events

/-- The accesses of `startup` for the listeners. -/
def listenAccesses : List Pgsocket → Master → List ℤ
  | [], _ => []
  | fd :: fds, m =>
    nextWaitEventPos m.rmWaitSet :: listenAccesses fds (startupListen .frontend m fd)

def startupAccesses (cfg : Setup) : List ℤ :=
  nextWaitEventPos (createWaitEventSetEx cfg.totalSockets) ::
    nextWaitEventPos (startupLatch cfg).rmWaitSet ::
      listenAccesses cfg.listenSockets (startupListen .ipc (startupLatch cfg) cfg.ipcSock)

variable {m m' : Master} {k : ℤ} {env : Env} {ev : WaitEvent} {b c fd : Pgsocket}
  {events : Events}

/-! ## Open connections hold a slot each -/

/-- An accepted backend connection that is not closed yet holds a slot, and every slot's connection
    is open. -/
structure Held (m : Master) : Prop where
  slot : ∀ b ∈ m.backends, .close b ∉ m.trace → ∃ k, Live m k ∧ (m.sockets k).fd = b
  isOpen : ∀ k, Live m k → .close (m.sockets k).fd ∉ m.trace

namespace Held

/-- **Frame rule**: the slots keep their connections, and none of these is accepted or closed. -/
theorem frame (hm : Held m) (hback : m'.backends = m.backends)
    (hclose : ∀ b ∈ m.backends, .close b ∈ m'.trace ↔ .close b ∈ m.trace)
    (hn : ∀ k, Live m k → (m.sockets k).fd ∈ m.backends) (htot : m'.totalSockets = m.totalSockets)
    (hsock : ∀ k, (m'.sockets k).type = (m.sockets k).type ∧
      (m'.sockets k).fd = (m.sockets k).fd) : Held m' := by
  have hlive : ∀ k, Live m' k ↔ Live m k := fun k =>
    ⟨fun h => h.of_eq htot.symm (hsock k).1.symm, fun h => h.of_eq htot (hsock k).1⟩
  constructor
  · intro b hb hc
    rw [hback] at hb
    obtain ⟨k, hk, hfd⟩ := hm.slot b hb fun h => hc ((hclose b hb).2 h)
    exact ⟨k, (hlive k).2 hk, (hsock k).2.trans hfd⟩
  · intro k hk
    have hk' := (hlive k).1 hk
    rw [(hsock k).2, hclose _ (hn k hk')]
    exact hm.isOpen k hk'

theorem opened (hm : Held m) (ht : Table m) (hn : Names m) (hb : b ∉ m.opened)
    (h : m.rmWaitSet.used ≠ m.rmWaitSet.waitSet.neventsSpace) :
    Held ((m.emit (.acceptBackend b)).openSocket .backend b backendEvents) := by
  obtain ⟨hr, hfree⟩ := ht.next h
  set m' := (m.emit (.acceptBackend b)).openSocket .backend b backendEvents
  have htrace : ∀ fd, .close fd ∈ m'.trace ↔ .close fd ∈ m.trace := by
    intro fd
    change .close fd ∈ .acceptBackend b :: m.trace ↔ _
    simp
  have hold : ∀ j, j ≠ nextWaitEventPos m.rmWaitSet → m'.sockets j = m.sockets j := fun j hj =>
    Function.update_of_ne hj _ _
  constructor
  · intro b' hb' hc
    rcases List.mem_cons.1 (show b' ∈ b :: m.backends from hb') with rfl | hb'
    · exact ⟨_, ⟨hr, openSocket_next.1⟩, openSocket_next.2⟩
    · obtain ⟨j, hj, hfd⟩ := hm.slot b' hb' fun h => hc ((htrace b').2 h)
      have hne : j ≠ nextWaitEventPos m.rmWaitSet := fun he => hfree (he ▸ ht.live_used hj)
      exact ⟨j, hj.of_eq rfl (by rw [hold j hne]), by rw [hold j hne]; exact hfd⟩
  · intro j hj hc
    rw [htrace] at hc
    by_cases hjn : j = nextWaitEventPos m.rmWaitSet
    · have hfd : (m'.sockets j).fd = b := by rw [hjn]; exact openSocket_next.2
      rw [hfd] at hc
      exact hb (hn.closed b hc)
    · rw [hold j hjn] at hc
      exact hm.isOpen j (hj.of_eq rfl (by rw [hold j hjn])) hc

theorem overflow (hm : Held m) (hn : Names m) (hb : b ∉ m.opened)
    (h : m.rmWaitSet.used = m.rmWaitSet.waitSet.neventsSpace) :
    Held (((m.emit (.acceptBackend b)).openSocket .backend b backendEvents).emit (.close b)) := by
  set m' := ((m.emit (.acceptBackend b)).openSocket .backend b backendEvents).emit (.close b)
  have hold : ∀ j, 0 ≤ j → m'.sockets j = m.sockets j := fun j hj => by
    have hne : j ≠ nextWaitEventPos m.rmWaitSet := by rw [next_of_full h]; omega
    exact Function.update_of_ne hne _ _
  have htrace : ∀ fd, fd ≠ b → (.close fd ∈ m'.trace ↔ .close fd ∈ m.trace) := by
    intro fd hfd
    change .close fd ∈ .close b :: .acceptBackend b :: m.trace ↔ _
    simp [hfd]
  constructor
  · intro b' hb' hc
    rcases List.mem_cons.1 (show b' ∈ b :: m.backends from hb') with rfl | hb'
    · exact absurd List.mem_cons_self hc
    · have hne : b' ≠ b := fun he => hb (he ▸ backends_sub_opened hb')
      obtain ⟨j, hj, hfd⟩ := hm.slot b' hb' fun h => hc ((htrace b' hne).2 h)
      have h0 := hold j hj.range.1
      exact ⟨j, hj.of_eq rfl (by rw [h0]), by rw [h0]; exact hfd⟩
  · intro j hj
    have h0 := hold j hj.range.1
    have hj' : Live m j := hj.of_eq rfl (by rw [h0])
    have hne : (m.sockets j).fd ≠ b := fun he =>
      hb (he ▸ backends_sub_opened (hn.backend j hj'.type))
    rw [h0, htrace _ hne]
    exact hm.isOpen j hj'

theorem closed (hm : Held m) (hn : Names m) (hk : Live m k) : Held (m.closeSocket k) := by
  have htrace : ∀ fd, .close fd ∈ (m.closeSocket k).trace ↔
      fd = (m.sockets k).fd ∨ .close fd ∈ m.trace := by
    intro fd
    change .close fd ∈ .close (m.sockets k).fd :: m.trace ↔ _
    simp
  constructor
  · intro b hb hc
    rw [htrace, not_or] at hc
    obtain ⟨j, hj, hfd⟩ := hm.slot b hb hc.2
    have hne : j ≠ k := by
      rintro rfl
      exact hc.1 hfd.symm
    have hs := m.closeSocket_of_ne hne
    exact ⟨j, hj.of_eq rfl (by rw [hs]), by rw [hs]; exact hfd⟩
  · intro j hj
    have hne : j ≠ k := by
      rintro rfl
      have := hj.type
      simp at this
    have hs := m.closeSocket_of_ne hne
    have hj' : Live m j := hj.of_eq rfl (by rw [hs])
    rw [htrace, hs, not_or]
    exact ⟨fun he => hne (hn.distinct hj' hk he), hm.isOpen j hj'⟩

end Held

/-- **Every update keeps the connections' slots.** -/
theorem Prim.held (h : Prim m m') (ht : Table m) (hn : Names m) (hm : Held m) : Held m' := by
  have hfd : ∀ k, Live m k → (m.sockets k).fd ∈ m.backends := fun k hk => hn.backend k hk.type
  cases h with
  | opened hb hsp => exact hm.opened ht hn hb hsp
  | overflow hb hsp => exact hm.overflow hn hb hsp
  | closed hk => exact hm.closed hn hk
  | accepted hc =>
    exact hm.frame rfl (fun b _ => by simp) hfd rfl fun _ => ⟨rfl, rfl⟩
  | noted hk ha =>
    refine hm.frame (About.emit ha).2.1 (fun b _ => ?_) hfd rfl fun _ => ⟨rfl, rfl⟩
    cases ha <;> simp
  | @dropped c hc =>
    refine hm.frame rfl (fun b hb => ?_) hfd rfl fun _ => ⟨rfl, rfl⟩
    have hne : b ≠ c := fun he => hn.apart b hb (he ▸ hc)
    simp [hne]
  | @scratch j ro w =>
    refine hm.frame rfl (fun _ _ => Iff.rfl) hfd rfl fun i => ?_
    by_cases hij : i = j
    · subst hij; simp
    · rw [m.setSocket_of_ne _ hij]; exact ⟨rfl, rfl⟩
  | frontends p =>
    obtain ⟨s, hs⟩ := modifyFrontends_rest { m with frontendPaused := p } (frontendEvents p)
    rw [hs]
    exact hm.frame rfl (fun _ _ => Iff.rfl) hfd rfl fun _ => ⟨rfl, rfl⟩
  | spawn env =>
    obtain ⟨seq, n, hs, he⟩ := spawnWorker_rest m env
    rw [he]
    exact hm.frame rfl (fun _ _ => Iff.rfl) hfd rfl fun _ => ⟨rfl, rfl⟩
  | interest _ _ | popIdle _ | pushIdle _ | pushJob _ _ | popJob _ | reap _ | halt =>
    exact hm.frame rfl (fun _ _ => Iff.rfl) hfd rfl fun _ => ⟨rfl, rfl⟩

theorem Prims.held (h : Prims m m') (ht : Table m) (hn : Names m) (hm : Held m) : Held m' := by
  induction h with
  | refl => exact hm
  | tail h h' ih => exact h'.held (Prims.table h ht) (Prims.names h hn) ih

theorem Step.held {l : Label} (hs : Step m l m') (ht : Table m) (hn : Names m) (hm : Held m) :
    Held m' := by
  have hfd : ∀ k, Live m k → (m.sockets k).fd ∈ m.backends := fun k hk => hn.backend k hk.type
  have hrest : ∀ {d s evs}, Held { m with workerDied := d, shutdownRequested := s, batch := evs } :=
    hm.frame rfl (fun _ _ => Iff.rfl) hfd rfl fun _ => ⟨rfl, rfl⟩
  cases hs with
  | @handle env ev evs hb hh hf =>
    exact Prims.held (handleEvent_prims (ht.tail hb) (ht.head hb) ⟨hf.ipc, hf.client⟩ hh)
      (ht.tail hb) (hn.tail evs) hrest
  | wait _ _ _ | sigusr1 | sigterm => exact hrest

theorem startup_held (cfg : Setup) : Held (startup cfg) := by
  have hst := startup_started cfg
  refine ⟨fun b hb => ?_, fun k hk => absurd hk.type (hst.backend k)⟩
  rw [hst.backends] at hb
  cases hb

/-! ## No other slot is written -/

theorem dispatchIdle_frame {n : ℕ} {sock : Pgsocket} (hk : k ∉ popped env sock n m) :
    (dispatchIdle env sock n m).2.sockets k = m.sockets k := by
  induction n generalizing m with
  | zero => rfl
  | succ n ih =>
    simp only [popped, dispatchIdle] at hk ⊢
    split at hk
    · rename_i ht
      rw [if_pos ht]
      split at hk
      · rename_i hs
        rw [if_pos hs]
        rfl
      · rename_i hs
        obtain ⟨hne, hk⟩ := not_or.1 (mt List.mem_cons.2 hk)
        rw [if_neg hs, ih hk, Master.closeSocket_of_ne _ hne]
        rfl
    · rename_i ht
      obtain ⟨-, hk⟩ := not_or.1 (mt List.mem_cons.2 hk)
      rw [if_neg ht, ih hk]
      rfl

theorem modifyFrontends_sockets : (m.modifyFrontends events).sockets = m.sockets := by
  obtain ⟨s, hs⟩ := modifyFrontends_rest m events
  rw [hs]

theorem spawnWorker_sockets : (spawnWorker m env).sockets = m.sockets := by
  obtain ⟨seq, n, hs, he⟩ := spawnWorker_rest m env
  rw [he]

theorem enqueue_sockets : (enqueue m c).sockets = m.sockets := by
  unfold enqueue
  split
  · dsimp only
    split
    · rw [modifyFrontends_sockets]
    · rfl
  · rfl

theorem onBackend_frame {j : ℤ} (hj : j ≠ k) :
    (onBackend m env k events).sockets j = m.sockets j := by
  have hset : ∀ (m' : Master) s, (m'.setSocket k s).sockets j = m'.sockets j :=
    fun m' s => m'.setSocket_of_ne s hj
  have hclose : ∀ m' : Master, (m'.closeSocket k).sockets j = m'.sockets j :=
    fun m' => m'.closeSocket_of_ne hj
  rcases onBackend_cases m env k events with ⟨-, hs⟩ | ⟨-, bytes, -, hs⟩
  · generalize onBackend m env k events = m' at hs
    cases hs with
    | quiet | deaf _ _ => rfl
    | closed => exact hclose m
    | recvFailed => exact (hset _ _).trans (hclose m)
    | badHello bytes => exact hclose _
    | piece bytes w _ _ => exact hset _ _
  · have hstate : (helloRead (helloState m k bytes) k).sockets j = m.sockets j :=
      (hset _ _).trans (hset _ _)
    rw [hs]
    rcases onHello_cases (helloState m k bytes) env k with h
    generalize onHello (helloState m k bytes) env k = m' at h
    cases h with
    | idle _ => exact hstate
    | sent _ _ =>
      unfold resumeFrontends
      split
      · rw [modifyFrontends_sockets]; exact hstate
      · exact hstate
    | failed _ _ => exact (hclose _).trans hstate

/-- **The accesses are all there are**: a round changes no other slot. -/
theorem handleEvent_frame (ht : Table m) (hin : m.inRange ev.userData) (hf : Fresh m env)
    (hh : m.halted = false) (hk : k ∉ accesses m env ev) :
    (handleEvent m env ev).sockets k = m.sockets k := by
  refine handleEvent_rule (I := fun m' => m'.sockets k = m.sockets k) ht hin hf hh
    (fun _ _ => rfl) ?_
  rintro - m₁ hm₁ hl ht₁ hf₁
  have hrun : m₁.halted = false := by
    obtain ⟨-, n, hs, d, rfl⟩ := hl
    exact hh
  rw [accesses, ← hm₁] at hk
  obtain ⟨hne, hk⟩ := not_or.1 (mt List.mem_cons.2 hk)
  rw [if_neg (by simp [hrun])] at hk
  have hsock : m₁.sockets = m.sockets := by
    obtain ⟨-, n, hs, d, rfl⟩ := hl
    rfl
  rw [← hsock]
  unfold handlerAccesses at hk
  unfold handler
  cases hty : (m₁.sockets ev.userData).type with
  | unset => rfl
  | ipc =>
    simp only [hty] at hk
    split at hk
    · rename_i hr
      rw [onBackendConnect_accept ht₁ hr.1 hr.2]
      have hnext : k ≠ nextWaitEventPos m₁.rmWaitSet := by simpa using hk
      have hopen : ((m₁.emit (.acceptBackend env.acceptIpc)).openSocket .backend env.acceptIpc
          backendEvents).sockets k = m₁.sockets k := Function.update_of_ne hnext _ _
      dsimp only
      split <;> exact hopen
    · rename_i hr
      rw [onBackendConnect_idle]
      rcases not_and_or.1 hr with h | h
      exacts [.inl (by simpa using h), .inr (not_not.1 h)]
  | frontend =>
    simp only [hty] at hk
    split at hk
    · rename_i hr
      rw [onFrontend_accept hr.1 hr.2]
      have hd := dispatchIdle_frame fun h => hk (List.mem_append_left _ h)
      dsimp only
      split
      · exact hd
      · rw [enqueue_sockets, spawnWorker_sockets]; exact hd
    · rename_i hr
      rw [onFrontend_idle]
      rcases not_and_or.1 hr with h | h
      exacts [.inl (by simpa using h), .inr (not_not.1 h)]
  | backend => exact onBackend_frame hne

/-! ## Where the accesses are -/

/-- The event makes `on_backend_connect` accept a connection while no slot is free. -/
structure Overflow (m : Master) (env : Env) (ev : WaitEvent) : Prop where
  running : ev.events.latchSet = true → m.shutdownRequested = false
  ipc : (m.sockets ev.userData).type = .ipc
  ready : ev.events.readable = true
  valid : env.acceptIpc ≠ pgInvalidSocket
  full : m.rmWaitSet.used = m.rmWaitSet.waitSet.neventsSpace

/-- The step does not accept a backend connection while no slot is free. -/
def NoOverflow (m : Master) : Label → Prop
  | .handle env => ∀ ev evs, m.batch = ev :: evs → ¬ Overflow m env ev
  | _ => True

/-- One round: all accesses are inside of the array, and a backend connection that finds no free slot
    is closed and leaves the table as it was. -/
structure RoundSafe (m : Master) (env : Env) (ev : WaitEvent) : Prop where
  inside : ∀ k ∈ accesses m env ev, m.inRange k
  refused : Overflow m env ev → .close env.acceptIpc ∈ (handleEvent m env ev).trace ∧
    (handleEvent m env ev).sockets = m.sockets

def StepSafe (m : Master) : Label → Prop
  | .handle env => ∀ ev evs, m.batch = ev :: evs → RoundSafe { m with batch := evs } env ev
  | _ => True

theorem popped_inRange (ht : Table m) {n : ℕ} {sock : Pgsocket} :
    ∀ k ∈ popped env sock n m, m.inRange k := by
  have key : ∀ {n : ℕ} {m' : Master}, m'.idle.buf = m.idle.buf →
      ∀ k ∈ popped env sock n m', m.inRange k := by
    intro n
    induction n with
    | zero => intro m' _ k hk; cases hk
    | succ n ih =>
      intro m' hbuf k hk
      have hfront : m.inRange m'.idle.front := by
        rw [RingBuf.front, hbuf]; exact ht.idle _
      simp only [popped] at hk
      split at hk
      · split at hk
        · rw [List.mem_singleton.1 hk]; exact hfront
        · rcases List.mem_cons.1 hk with rfl | hk
          exacts [hfront, ih (by exact hbuf) k hk]
      · rcases List.mem_cons.1 hk with rfl | hk
        exacts [hfront, ih (by exact hbuf) k hk]
  exact key rfl

theorem allSlots_inRange : ∀ k ∈ allSlots m, m.inRange k := by
  intro k hk
  obtain ⟨i, hi, rfl⟩ := List.mem_map.1 hk
  have := List.mem_range.1 hi
  exact ⟨by omega, by exact_mod_cast this⟩

theorem Latched.inRange (h : Latched m m') : m'.inRange k ↔ m.inRange k := by
  obtain ⟨-, n, hs, d, rfl⟩ := h
  exact Iff.rfl

/-- **Every access is inside of the array unless the event set overflows.** -/
theorem accesses_inRange (ht : Table m) (hin : m.inRange ev.userData) (hh : m.halted = false)
    (hno : ¬ Overflow m env ev) : ∀ k ∈ accesses m env ev, m.inRange k := by
  intro k hk
  rcases List.mem_cons.1 hk with rfl | hk
  · exact hin
  rcases onLatch_cases env ev.events hh with ⟨-, -, h⟩ | ⟨hrun, -, hl⟩
  · rw [h] at hk
    cases hk
  split at hk
  · cases hk
  have ht₁ := Prims.table hl.prims ht
  generalize onLatch m env ev.events = m₁ at hl hk ht₁
  rw [← hl.inRange]
  unfold handlerAccesses at hk
  split at hk
  · cases hk
  · rename_i hty
    split at hk
    · rename_i hr
      rw [List.mem_singleton.1 hk]
      refine (ht₁.next fun hfull => hno ?_).1
      obtain ⟨-, n, hs, d, rfl⟩ := hl
      exact ⟨hrun, hty, hr.1, hr.2, hfull⟩
    · cases hk
  · split at hk
    · rcases List.mem_append.1 hk with hk | hk
      · exact popped_inRange (m := m₁.emit (.acceptClient env.acceptClient)) { ht₁ with } k hk
      · exact allSlots_inRange k hk
    · cases hk
  · exact allSlots_inRange k hk

/-- An overflow takes the address of the cell before the array. -/
theorem Overflow.outside (h : Overflow m env ev) (hh : m.halted = false) :
    -1 ∈ accesses m env ev := by
  rcases onLatch_cases env ev.events hh with ⟨hl, hs, -⟩ | ⟨-, hrun, hl⟩
  · have := h.running hl
    simp [hs] at this
  refine List.mem_cons_of_mem _ ?_
  rw [if_neg (by simp [hrun])]
  generalize onLatch m env ev.events = m₁ at hl
  obtain ⟨-, n, hs, d, rfl⟩ := hl
  simp only [handlerAccesses, h.ipc, h.ready, ne_eq, h.valid, not_false_eq_true, and_self, if_true,
    next_of_full h.full, List.mem_singleton]

theorem roundSafe_iff (ht : Table m) (hin : m.inRange ev.userData) (hh : m.halted = false) :
    RoundSafe m env ev ↔ ¬ Overflow m env ev := by
  constructor
  · intro hs ho
    have := (hs.inside _ (ho.outside hh)).1
    omega
  · exact fun ho => ⟨accesses_inRange ht hin hh ho, fun h => absurd h ho⟩

/-! ## Along runs -/

/-- The socket table: slot 0 is the latch's; another slot is registered if and only if it holds a
    listener or a connection, under its own index; every open backend connection holds one slot,
    and no two slots hold the same. -/
structure SlotTable (m : Master) : Prop where
  latch : (m.sockets 0).type = .unset ∧ m.used 0
  range : ∀ k, m.used k → m.inRange k
  used : ∀ k, k ≠ 0 → m.inRange k → (m.used k ↔ (m.sockets k).type ≠ .unset)
  pos : ∀ k, m.used k → (m.sockets k).pos = k
  held : ∀ b ∈ m.backends, .close b ∉ m.trace → ∃ k, Live m k ∧ (m.sockets k).fd = b
  isOpen : ∀ k, Live m k → (m.sockets k).fd ∈ m.backends ∧ .close (m.sockets k).fd ∉ m.trace
  distinct : ∀ j k, Live m j → Live m k → (m.sockets j).fd = (m.sockets k).fd → j = k

theorem Table.slotTable (ht : Table m) (hn : Names m) (hh : Held m) : SlotTable m where
  latch := ht.zero
  range _ hk := ht.used_range hk
  used k h0 hk := (ht.live k h0 hk).symm
  pos := ht.pos
  held := hh.slot
  isOpen k hk := ⟨hn.backend k hk.type, hh.isOpen k hk⟩
  distinct _ _ hj hk := hn.distinct hj hk

theorem listenAccesses_inRange {fds : List Pgsocket} (ht : Table m)
    (h : m.rmWaitSet.used + fds.length ≤ m.totalSockets) :
    ∀ k ∈ listenAccesses fds m, m.inRange k := by
  induction fds generalizing m with
  | nil => intro k hk; cases hk
  | cons fd fds ih =>
    simp only [List.length_cons] at h
    obtain ⟨ht', hu⟩ : Table (startupListen .frontend m fd) ∧ _ :=
      startupListen_table fd ht (by omega) (by decide)
    intro k hk
    rcases List.mem_cons.1 hk with rfl | hk
    · exact (ht.next (by rw [ht.space]; omega)).1
    · refine ih ht' ?_ k hk
      rw [hu]
      change _ ≤ m.totalSockets; omega

theorem startupAccesses_inRange (cfg : Setup) :
    ∀ k ∈ startupAccesses cfg, 0 ≤ k ∧ k < cfg.totalSockets := by
  have hmax := cfg.max_pos
  have htot : cfg.totalSockets = 1 + cfg.listenSockets.length + cfg.maxWorkerProcesses := rfl
  have hne : (createWaitEventSetEx cfg.totalSockets).used ≠
      (createWaitEventSetEx cfg.totalSockets).waitSet.neventsSpace := by
    simp only [createWaitEventSetEx, createWaitEventSet]; omega
  have ht := startupLatch_table cfg
  have hu : (startupLatch cfg).rmWaitSet.used = 1 := openSocket_used hne
  have htot' : (startupLatch cfg).totalSockets = cfg.totalSockets := rfl
  obtain ⟨ht', hu'⟩ : Table (startupListen .ipc (startupLatch cfg) cfg.ipcSock) ∧ _ :=
    startupListen_table cfg.ipcSock ht (by omega) (by decide)
  intro k hk
  rcases List.mem_cons.1 hk with rfl | hk
  · obtain ⟨h0, h1, -⟩ := (create_wf (n := cfg.totalSockets) (by omega)).next hne
    exact ⟨h0, h1⟩
  rcases List.mem_cons.1 hk with rfl | hk
  · exact (ht.next (by rw [ht.space]; omega)).1
  · refine listenAccesses_inRange ht' ?_ k hk
    rw [hu', hu]
    change _ ≤ cfg.totalSockets; omega

theorem Step.safe_iff {l : Label} (hs : Step m l m') (ht : Table m) :
    StepSafe m l ↔ NoOverflow m l := by
  cases hs with
  | wait _ _ _ | sigusr1 | sigterm => exact Iff.rfl
  | @handle env ev evs hb hh hf =>
    have hsame : Overflow { m with batch := evs } env ev ↔ Overflow m env ev :=
      ⟨fun h => ⟨h.running, h.ipc, h.ready, h.valid, h.full⟩,
        fun h => ⟨h.running, h.ipc, h.ready, h.valid, h.full⟩⟩
    have hiff : RoundSafe { m with batch := evs } env ev ↔ _ :=
      roundSafe_iff (ht.tail hb) (ht.head hb) hh
    constructor
    · rintro h ev' evs' hb'
      cases hb.symm.trans hb'
      exact mt hsame.2 (hiff.1 (h ev evs hb))
    · rintro h ev' evs' hb'
      cases hb.symm.trans hb'
      exact hiff.2 (mt hsame.1 (h ev evs hb))

/-- **The table is right along every run, and its accesses stay inside exactly along the runs in which
    no backend connects while no slot is free.** -/
theorem slots_safe_iff_no_overflow {cfg : Setup} {h : List (Master × Label)}
    (hr : Run Step (startup cfg) h m) :
    ((∀ k ∈ startupAccesses cfg, 0 ≤ k ∧ k < cfg.totalSockets) ∧ Always SlotTable h m ∧
      Meets StepSafe h) ↔ Meets NoOverflow h := by
  have hinv : Always (fun m => Table m ∧ Names m ∧ Held m) h m :=
    hr.always ⟨startup_table cfg, startup_names cfg, startup_held cfg⟩
      fun _ _ _ ⟨ht, hn, hh⟩ hs => ⟨hs.table ht, hs.names ht hn, hs.held ht hn hh⟩
  have hsafe : Meets StepSafe h ↔ Meets NoOverflow h := by
    clear hinv
    induction hr with
    | nil => simp
    | snoc hr hs ih =>
      rw [meets_cons, meets_cons, ih, hs.safe_iff (reach_table ⟨_, hr⟩)]
  constructor
  · exact fun hall => hsafe.1 hall.2.2
  · intro hno
    exact ⟨startupAccesses_inRange cfg, hinv.imp fun _ ⟨ht, hn, hh⟩ => ht.slotTable hn hh,
      hsafe.2 hno⟩

/-- Workers 20, 21 and 22 connect; there is room for two. -/
def overflowRun : List Label :=
  [.wait [readable 1], .handle { acceptIpc := 20 }, .wait [readable 1], .handle { acceptIpc := 21 },
    .wait [readable 1]]

/-- Worker 22 is closed, but the cell before the array has been filled in. -/
theorem third_worker_outside : ∃ m, Reach Step (startup smallSetup) m ∧ m.batch = [readable 1] ∧
    (-1 : ℤ) ∈ accesses m { acceptIpc := 22 } (readable 1) ∧
    (handleEvent m { acceptIpc := 22 } (readable 1)).sockets (-1) ≠ m.sockets (-1) := by
  have hexec : (execs next (startup smallSetup) overflowRun).any (fun m =>
      m.batch = [readable 1] ∧ (-1 : ℤ) ∈ accesses m { acceptIpc := 22 } (readable 1) ∧
      ((handleEvent m { acceptIpc := 22 } (readable 1)).sockets (-1)).fd ≠ (m.sockets (-1)).fd) =
        true := by decide
  obtain ⟨m, hr, hp⟩ := exists_reach_of_execs (fun _ _ _ => step_of_next) hexec
  obtain ⟨h1, h2, h3⟩ := of_decide_eq_true hp
  exact ⟨m, hr, h1, h2, fun he => h3 (by rw [he])⟩

/-- The first worker finds a free slot. -/
theorem first_worker_inside : ∃ h m, Run Step (startup smallSetup) h m ∧ m.backends = [20] ∧
    Always SlotTable h m ∧ Meets StepSafe h := by
  have h1 : Step (startup smallSetup) (.wait [readable 1]) _ :=
    .wait (by decide) (by decide) (by decide)
  have h2 : Step { startup smallSetup with batch := [readable 1] } (.handle { acceptIpc := 20 }) _ :=
    .handle rfl (by decide) (by decide)
  have hr := Run.snoc (.snoc .nil h1) h2
  refine ⟨_, _, hr, by decide, ((slots_safe_iff_no_overflow hr).2 ?_).2⟩
  simp only [meets_cons, meets_nil, and_true, NoOverflow]
  rintro ev evs he ho
  cases he
  exact absurd ho.full (by decide)

end Rustica
