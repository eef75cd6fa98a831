/-
  The ring of idle workers.

  `idle_workers` keeps slot numbers, and `close_socket` leaves the ring alone, so an entry can
  outlive its connection.  An entry of a free slot does no harm: `on_frontend` skips it.  It does
  when the slot is given to another connection: that one counts as idle before it has said hello.

  `IdleOk` is what holds of the ring as long as no slot is reused while the ring still names it.
-/
import Rustica.Hello

namespace Rustica

open Exec

/-- The slots in the ring of idle workers, the next one first. -/
def Master.idleList (m : Master) : List ℤ := m.idle.toList m.totalSockets

/-- Whether the last of the hellos from `b` and the clients sent to `b` is a hello. -/
def saidHello (b : Pgsocket) : List Act → Bool
  | [] => false
  | .hello b' :: l => if b' = b then true else saidHello b l
  | .sent b' _ :: l => if b' = b then false else saidHello b l
  | _ :: l => saidHello b l

def Act.sentTo (b : Pgsocket) : Act → Bool
  | .sent b' _ => b' = b
  | _ => false

/-- The number of clients sent over the connection `b`. -/
def Master.sentTo (m : Master) (b : Pgsocket) : ℕ := m.trace.countP (Act.sentTo b)

/-- Every entry of the ring that names a backend names one that has said hello since its last
    client. -/
def RingOk (m : Master) : Prop :=
  ∀ k ∈ m.idleList, (m.sockets k).type = .backend → saidHello (m.sockets k).fd m.trace = true

theorem Table.idleList_inRange {m : Master} {k : ℤ} (ht : Table m) (hk : k ∈ m.idleList) :
    m.inRange k := by
  obtain ⟨i, rfl⟩ := RingBuf.mem_toList hk
  exact ht.idle i

structure IdleOk (m : Master) : Prop where
  ring : m.idle.Wf m.totalSockets
  nodup : m.idleList.Nodup
  hello : RingOk m
  /-- an idle worker's bytes are left unread -/
  quiet : ∀ k ∈ m.idleList, (m.sockets k).type = .backend → (m.interest k).readable = false
  counts : ∀ b, m.sentTo b + (saidHello b m.trace).toNat ≤ m.hellos b
  /-- no event of the batch reads from an idle worker -/
  batch : ∀ ev ∈ m.batch, ev.events.readable = true →
    (m.sockets ev.userData).type = .backend → ev.userData ∉ m.idleList
  once : (m.batch.map WaitEvent.userData).Nodup

variable {m m' : Master} {k : ℤ} {env : Env} {ev : WaitEvent} {b c fd : Pgsocket} {a : Act}
  {events : Events}

/-! ## The record of hellos and clients -/

/-- Neither a hello nor a client sent. -/
def Act.Silent : Act → Prop
  | .hello _ | .sent _ _ => False
  | _ => True

theorem Act.Silent.saidHello (h : a.Silent) (l : List Act) :
    saidHello b (a :: l) = Rustica.saidHello b l := by
  cases a <;> first | rfl | exact h.elim

theorem Act.Silent.sentTo (h : a.Silent) : (m.emit a).sentTo b = m.sentTo b := by
  cases a <;> first | exact h.elim | simp [Master.sentTo, Act.sentTo]

theorem Act.Silent.hellos (h : a.Silent) : (m.emit a).hellos b = m.hellos b := by
  cases a <;> first | exact h.elim | simp [Master.hellos]

/-- A connection that was never accepted has not said hello. -/
theorem Names.saidHello (hm : Names m) (hb : b ∉ m.backends) : saidHello b m.trace = false := by
  refine hm.of_trace hb (Rustica.saidHello b) fun a l ha => ?_
  cases a with
  | hello b' =>
    have hne : b' ≠ b := by
      rintro rfl
      exact ha .hello
    rw [Rustica.saidHello, if_neg hne]
  | sent b' c =>
    have hne : b' ≠ b := by
      rintro rfl
      exact ha (.sent c)
    rw [Rustica.saidHello, if_neg hne]
  | _ => rfl

namespace IdleOk

/-- **Frame rule**: the ring stays right when no slot it names turns into another connection or
    becomes readable, and neither a hello nor a client is noted. -/
theorem frame (h : IdleOk m) (hidle : m'.idle = m.idle) (htot : m'.totalSockets = m.totalSockets)
    (hbatch : m'.batch = m.batch) (hsaid : ∀ b, saidHello b m'.trace = saidHello b m.trace)
    (hsent : ∀ b, m'.sentTo b = m.sentTo b) (hhellos : ∀ b, m'.hellos b = m.hellos b)
    (hslot : ∀ k ∈ m.idleList, (m'.sockets k).type = .backend → (m.sockets k).type = .backend ∧
      (m'.sockets k).fd = (m.sockets k).fd ∧
      ((m.interest k).readable = false → (m'.interest k).readable = false)) : IdleOk m' := by
  have hlist : m'.idleList = m.idleList := by rw [Master.idleList, hidle, htot]; rfl
  refine ⟨by rw [hidle, htot]; exact h.ring, hlist ▸ h.nodup, fun k hk ht => ?_,
    fun k hk ht => ?_, fun b => ?_, fun ev hev hr ht hk => ?_, hbatch ▸ h.once⟩
  · rw [hlist] at hk
    obtain ⟨h1, h2, -⟩ := hslot k hk ht
    rw [h2, hsaid]; exact h.hello k hk h1
  · rw [hlist] at hk
    obtain ⟨h1, -, h3⟩ := hslot k hk ht
    exact h3 (h.quiet k hk h1)
  · rw [hsent, hsaid, hhellos]; exact h.counts b
  · rw [hbatch] at hev
    rw [hlist] at hk
    exact h.batch ev hev hr (hslot _ hk ht).1 hk

theorem silent (h : IdleOk m) (ha : a.Silent) : IdleOk (m.emit a) :=
  h.frame rfl rfl rfl (fun _ => ha.saidHello _) (fun _ => ha.sentTo) (fun _ => ha.hellos)
    fun _ _ ht => ⟨ht, rfl, id⟩

/-- A hello, from any connection. -/
theorem noteHello (h : IdleOk m) : IdleOk (m.emit (.hello b)) := by
  refine ⟨h.ring, h.nodup, fun k hk ht => ?_, h.quiet, fun b' => ?_, h.batch, h.once⟩
  · have := h.hello k hk ht
    by_cases he : b = (m.sockets k).fd <;> simp [saidHello, he, this]
  · have := h.counts b'
    have hs : (m.emit (.hello b)).sentTo b' = m.sentTo b' := by simp [Master.sentTo, Act.sentTo]
    rw [hs]
    by_cases he : b = b'
    · subst he
      simp only [Master.hellos, emit_trace, saidHello, if_pos, List.count_cons_self, Bool.toNat_true]
      simp only [Master.hellos] at this
      omega
    · simpa [Master.hellos, saidHello, he, List.count_cons_of_ne] using this

/-- A client for a connection that has said hello and that the ring does not name. -/
theorem sent (h : IdleOk m) (hb : saidHello b m.trace = true)
    (hring : ∀ k ∈ m.idleList, (m.sockets k).type = .backend → (m.sockets k).fd ≠ b) :
    IdleOk (m.emit (.sent b c)) := by
  refine ⟨h.ring, h.nodup, fun k hk ht => ?_, h.quiet, fun b' => ?_, h.batch, h.once⟩
  · have := h.hello k hk ht
    simp [saidHello, (hring k hk ht).symm, this]
  · have := h.counts b'
    have hh : (m.emit (.sent b c)).hellos b' = m.hellos b' := by simp [Master.hellos]
    rw [hh]
    by_cases he : b = b'
    · subst he
      simp only [hb, Bool.toNat_true] at this
      simpa [Master.sentTo, Act.sentTo, saidHello] using this
    · simpa [Master.sentTo, Act.sentTo, saidHello, he] using this

theorem popIdle (h : IdleOk m) (hpos : 0 < m.idle.size) : IdleOk m.popIdle := by
  have hlist : m.idleList = m.idle.front :: m.popIdle.idleList := RingBuf.toList_pop h.ring hpos
  have hsub : ∀ k ∈ m.popIdle.idleList, k ∈ m.idleList := by
    intro k hk
    rw [hlist]; exact List.mem_cons_of_mem _ hk
  exact ⟨h.ring.pop hpos, (hlist ▸ h.nodup).of_cons, fun k hk => h.hello k (hsub k hk),
    fun k hk => h.quiet k (hsub k hk), h.counts,
    fun ev hev hr ht hk => h.batch ev hev hr ht (hsub _ hk), h.once⟩

theorem front_not_mem (h : IdleOk m) (hpos : 0 < m.idle.size) :
    m.idle.front ∉ m.popIdle.idleList := by
  have hlist : m.idleList = m.idle.front :: m.popIdle.idleList := RingBuf.toList_pop h.ring hpos
  exact (List.nodup_cons.1 (hlist ▸ h.nodup)).1

theorem front_mem (h : IdleOk m) (hpos : 0 < m.idle.size) : m.idle.front ∈ m.idleList := by
  rw [Master.idleList, RingBuf.toList_pop h.ring hpos]; exact List.mem_cons_self

/-- A ring of different slots that does not name `k` has a free cell. -/
theorem size_lt (h : IdleOk m) (ht : Table m) (hk : m.inRange k) (hnot : k ∉ m.idleList) :
    m.idle.size < m.totalSockets := by
  have hle := length_le_totalSockets (List.nodup_cons.2 ⟨hnot, h.nodup⟩) (List.forall_mem_cons.2
    ⟨hk, fun j => ht.idleList_inRange⟩)
  rw [List.length_cons, Master.idleList, RingBuf.length_toList] at hle
  exact hle

/-- A worker that has said hello goes to the end of the ring. -/
theorem pushIdle (h : IdleOk m) (ht : Table m) (hk : Live m k) (hnot : k ∉ m.idleList)
    (hsaid : saidHello (m.sockets k).fd m.trace = true) (hquiet : (m.interest k).readable = false)
    (hbatch : ∀ ev ∈ m.batch, ev.userData ≠ k) :
    IdleOk { m with idle := m.idle.push m.totalSockets k } := by
  have hlist : Master.idleList { m with idle := m.idle.push m.totalSockets k } =
      m.idleList ++ [k] := RingBuf.toList_push h.ring (h.size_lt ht hk.range hnot)
  refine ⟨h.ring.push k, ?_, fun j hj hty => ?_, fun j hj hty => ?_, h.counts,
    fun ev hev hr hty hj => ?_, h.once⟩
  · rw [hlist]
    exact h.nodup.append (by simp) (by simpa using hnot)
  · rw [hlist, List.mem_append, List.mem_singleton] at hj
    rcases hj with hj | rfl
    exacts [h.hello j hj hty, hsaid]
  · rw [hlist, List.mem_append, List.mem_singleton] at hj
    rcases hj with hj | rfl
    exacts [h.quiet j hj hty, hquiet]
  · rw [hlist, List.mem_append, List.mem_singleton] at hj
    rcases hj with hj | hj
    exacts [h.batch ev hev hr hty hj, hbatch ev hev hj]

theorem closeSocket (h : IdleOk m) (k : ℤ) : IdleOk (m.closeSocket k) := by
  have hclose : IdleOk (m.emit (.close (m.sockets k).fd)) := h.silent trivial
  refine hclose.frame rfl rfl rfl (fun _ => rfl) (fun _ => rfl) (fun _ => rfl) fun j _ ht => ?_
  by_cases hj : j = k
  · subst hj
    simp [Master.closeSocket] at ht
  · simp only [Master.closeSocket, Master.setSocket, Function.update_of_ne hj] at ht ⊢
    exact ⟨ht, rfl, id⟩

/-- Storing in a slot, its type and connection apart. -/
theorem setSocket (h : IdleOk m) {s : Socket} (hs : s.type = .backend →
    (m.sockets k).type = .backend ∧ s.fd = (m.sockets k).fd) : IdleOk (m.setSocket k s) := by
  refine h.frame rfl rfl rfl (fun _ => rfl) (fun _ => rfl) (fun _ => rfl) fun j _ ht => ?_
  by_cases hj : j = k
  · subst hj
    rw [Master.setSocket_self] at ht ⊢
    exact ⟨(hs ht).1, (hs ht).2, id⟩
  · simp only [Master.setSocket, Function.update_of_ne hj] at ht ⊢
    exact ⟨ht, trivial, id⟩

theorem modify (h : IdleOk m) (ht : Table m) (hk : m.used k)
    (he : k ∈ m.idleList → events.readable = false) : IdleOk (m.modify k events) := by
  refine h.frame rfl rfl rfl (fun _ => rfl) (fun _ => rfl) (fun _ => rfl) fun j hj hty => ?_
  refine ⟨hty, rfl, fun hq => ?_⟩
  rw [modify_interest ht hk]
  split
  · subst j; exact he hj
  · exact hq

theorem modifyFrontends (h : IdleOk m) (ht : Table m) : IdleOk (m.modifyFrontends events) := by
  have hint : ∀ k, Live m k → (m.modifyFrontends events).interest k = m.interest k := by
    intro k hk
    rw [modifyFrontends_interest ht hk.range, hk.type]; rfl
  obtain ⟨s, hs⟩ := modifyFrontends_rest m events
  rw [hs] at hint ⊢
  refine h.frame rfl rfl rfl (fun _ => rfl) (fun _ => rfl) (fun _ => rfl) fun k hk hty => ?_
  exact ⟨hty, rfl, fun hq => by rw [hint k ⟨ht.idleList_inRange hk, hty⟩]; exact hq⟩

/-- Only the fields of the workers, the flags and the job queue differ. -/
theorem rest (h : IdleOk m) {seq n hs d hl jobs p} : IdleOk { m with
    workerIdSeq := seq, numWorkers := n, workerHandles := hs, workerDied := d, halted := hl,
    jobs := jobs, frontendPaused := p } :=
  ⟨h.ring, h.nodup, h.hello, h.quiet, h.counts, h.batch, h.once⟩

end IdleOk

/-! ## The handlers -/

theorem onBackendConnect_idleOk (h : IdleOk m) (ht : Table m)
    (hnew : m.rmWaitSet.used ≠ m.rmWaitSet.waitSet.neventsSpace →
      nextWaitEventPos m.rmWaitSet ∉ m.idleList) : IdleOk (onBackendConnect m env events) := by
  have hacc : IdleOk (m.emit (.acceptBackend env.acceptIpc)) := h.silent trivial
  -- the slot that is filled in is not in the ring
  have hne : ∀ k ∈ m.idleList, k ≠ nextWaitEventPos m.rmWaitSet := by
    rintro k hk rfl
    by_cases hf : m.rmWaitSet.used = m.rmWaitSet.waitSet.neventsSpace
    · have := (ht.idleList_inRange hk).1
      rw [next_of_full hf] at this
      omega
    · exact hnew hf hk
  have hopen : IdleOk ((m.emit (.acceptBackend env.acceptIpc)).openSocket .backend env.acceptIpc
      backendEvents) := by
    refine hacc.frame rfl rfl rfl (fun _ => rfl) (fun _ => rfl) (fun _ => rfl) fun k hk hty => ?_
    have hk' : k ≠ nextWaitEventPos (m.emit (.acceptBackend env.acceptIpc)).rmWaitSet := hne k hk
    rw [openSocket_sockets, Function.update_of_ne hk'] at hty ⊢
    refine ⟨hty, rfl, fun hq => ?_⟩
    simp only [Master.interest, Master.openSocket, Master.setSocket]
    by_cases hf : (m.emit (.acceptBackend env.acceptIpc)).rmWaitSet.used =
        (m.emit (.acceptBackend env.acceptIpc)).rmWaitSet.waitSet.neventsSpace
    · rw [add_of_full hf]; exact hq
    · rw [add_events hf, Function.update_of_ne hk']; exact hq
  exact onBackendConnect_rule events ht h (fun _ _ _ => hopen) fun _ _ _ => hopen.silent trivial

theorem Incomplete.idleOk (hs : Incomplete m env k events m') (h : IdleOk m) (ht : Table m)
    (hk : Live m k) : IdleOk m' := by
  cases hs with
  | quiet => exact h
  | closed => exact h.closeSocket k
  | deaf _ _ => exact h.modify ht (ht.live_used hk) fun _ => rfl
  | recvFailed => exact (h.closeSocket k).setSocket fun hty => absurd hty (by decide)
  | badHello bytes =>
    have h' : IdleOk (m.emit (.received (m.sockets k).fd bytes)) := h.silent trivial
    exact h'.closeSocket k
  | piece bytes w _ _ =>
    have h' : IdleOk (m.emit (.received (m.sockets k).fd bytes)) := h.silent trivial
    exact h'.setSocket fun hty => ⟨hty, rfl⟩

theorem Greeted.idleOk (hs : Greeted m env k m') (h : IdleOk m) (ht : Table m) (hn : Names m)
    (hk : Live m k) (hnot : k ∉ m.idleList) (hbatch : ∀ ev ∈ m.batch, ev.userData ≠ k) :
    IdleOk m' := by
  have hnote : IdleOk (m.emit (.hello (m.sockets k).fd)) := h.noteHello
  have hread : IdleOk (helloRead m k) := hnote.setSocket fun hty => ⟨hty, rfl⟩
  have ht' := Prims.table (helloRead_prims hk) ht
  have hk' := helloRead_live hk
  have hsaid : saidHello (m.sockets k).fd (helloRead m k).trace = true := by
    simp [helloRead, Master.setSocket, saidHello]
  -- no other slot holds this connection
  have hother : ∀ j ∈ (helloRead m k).idleList, ((helloRead m k).sockets j).type = .backend →
      ((helloRead m k).sockets j).fd ≠ (m.sockets k).fd := by
    intro j hj hty he
    have hjk : j ≠ k := fun h => hnot (h ▸ hj)
    simp only [helloRead, Master.setSocket, Function.update_of_ne hjk, emit_sockets] at hty he
    have hr : m.inRange j := ht'.idleList_inRange hj
    exact hjk (hn.distinct ⟨hr, hty⟩ hk he)
  cases hs with
  | idle _ =>
    have hu := ht'.live_used hk'
    have hmod : IdleOk ((helloRead m k).modify k wlSocketClosed) :=
      hread.modify ht' hu fun _ => rfl
    have hpush := hmod.pushIdle (k := k) (ht'.modify _ _) ⟨hk'.range, hk'.type⟩ hnot
      (by rw [modify_sockets, helloRead_sockets]; exact hsaid)
      (by rw [modify_interest ht' hu, if_pos rfl]; rfl) hbatch
    rw [ht.live_pos hk]
    exact hpush
  | sent _ _ =>
    have hsent : IdleOk ((helloRead m k).emit (.sent (m.sockets k).fd m.jobs.front)) :=
      hread.sent hsaid hother
    have ht₁ : Table { (helloRead m k).emit (.sent (m.sockets k).fd m.jobs.front) with
      jobs := m.jobs.pop jobQlen } := { ht' with }
    unfold resumeFrontends
    split
    · exact IdleOk.modifyFrontends (m := { { (helloRead m k).emit (.sent (m.sockets k).fd
        m.jobs.front) with jobs := m.jobs.pop jobQlen } with frontendPaused := false })
        hsent.rest { ht₁ with }
    · exact hsent.rest
  | failed _ _ =>
    have hfail : IdleOk ((helloRead m k).emit (.sendFailed (m.sockets k).fd m.jobs.front)) :=
      hread.silent trivial
    exact hfail.closeSocket k

theorem onBackend_idleOk (h : IdleOk m) (ht : Table m) (hn : Names m) (hk : Live m k)
    (hnot : events.readable = true → k ∉ m.idleList) (hbatch : ∀ ev ∈ m.batch, ev.userData ≠ k) :
    IdleOk (onBackend m env k events) := by
  rcases onBackend_cases m env k events with ⟨-, hs⟩ | ⟨hc, bytes, -, hs⟩
  · exact hs.idleOk h ht hk
  · have h' : IdleOk (m.emit (.received (m.sockets k).fd
        (bytes.take (helloLen - (m.sockets k).readOffset)))) := h.silent trivial
    have hstate : IdleOk (helloState m k bytes) := h'.setSocket fun hty => ⟨hty, rfl⟩
    have hp := helloState_prims hk bytes
    rw [hs]
    exact (onHello_cases _ env k).idleOk hstate (Prims.table hp ht) (Prims.names hp hn)
      (helloState_live hk bytes) (hnot hc.2.1) hbatch

/-- The front of the ring is handed a client. -/
theorem handOver_idleOk (h : IdleOk m) (ht : Table m) (hn : Names m) (hpos : 0 < m.idle.size)
    (hk : Live m m.idle.front) : IdleOk (handOver m.popIdle m.idle.front c) := by
  have hfront := h.front_not_mem hpos
  have hpop := h.popIdle hpos
  have hsent : IdleOk (m.popIdle.emit (.sent (m.sockets m.idle.front).fd c)) := by
    refine hpop.sent (h.hello _ (h.front_mem hpos) hk.type) fun j hj hty he => ?_
    obtain ⟨i, hi⟩ := RingBuf.mem_toList hj
    have hr : m.inRange j := hi ▸ ht.idle i
    have hjk := hn.distinct ⟨hr, hty⟩ hk he
    exact hfront (hjk ▸ hj)
  have hclose : IdleOk ((m.popIdle.emit (.sent (m.sockets m.idle.front).fd c)).emit (.close c)) :=
    hsent.silent trivial
  exact hclose.modify { ht with ring := ht.ring.pop hpos } (ht.live_used hk)
    fun hmem => absurd hmem hfront

theorem spawnWorker_idleOk (h : IdleOk m) : IdleOk (spawnWorker m env) := by
  obtain ⟨seq, n, hs, he⟩ := spawnWorker_rest m env
  rw [he]; exact h.rest

theorem enqueue_idleOk (h : IdleOk m) (ht : Table m) : IdleOk (enqueue m c) := by
  unfold enqueue
  split
  · dsimp only
    split
    · exact IdleOk.modifyFrontends (m := { { m with jobs := m.jobs.push jobQlen c } with
        frontendPaused := true }) h.rest { ht with }
    · exact h.rest
  · exact h.silent trivial

theorem onFrontend_idleOk (h : IdleOk m) (ht : Table m) (hn : Names m) (hf : Fresh m env) :
    IdleOk (onFrontend m env events) := by
  have hbroken : ∀ {m'}, IdleOk m' → 0 < m'.idle.size → IdleOk ((m'.popIdle.emit
      (.sendFailed (m'.sockets m'.idle.front).fd env.acceptClient)).closeSocket m'.idle.front) := by
    intro m' h hpos
    have hfail : IdleOk (m'.popIdle.emit (.sendFailed (m'.sockets m'.idle.front).fd
      env.acceptClient)) := (h.popIdle hpos).silent trivial
    exact hfail.closeSocket _
  have hrule := onFrontend_rule events (I := IdleOk) ht hf (h.silent trivial)
    (fun _ _ h hpos _ => h.popIdle hpos) (fun _ _ _ hpos _ h => hbroken h hpos)
  rcases hrule with ⟨-, he⟩ | ⟨-, m', hp, -, h', hs⟩
  · rw [he]; exact h
  generalize onFrontend m env events = m₁ at hs
  have ht' := Prims.table hp ht
  cases hs with
  | handed hpos hk _ => exact handOver_idleOk h' ht' (Prims.names hp hn) hpos hk
  | kept _ =>
    exact enqueue_idleOk (spawnWorker_idleOk h') (Prims.table (spawnWorker_prims m' env) ht')

/-! ## Along runs -/

/-- The event makes `on_backend_connect` accept a connection into a slot that the ring of idle
    workers still names. -/
structure StaleReuse (m : Master) (env : Env) (ev : WaitEvent) : Prop where
  running : ev.events.latchSet = true → m.shutdownRequested = false
  ipc : (m.sockets ev.userData).type = .ipc
  ready : ev.events.readable = true
  valid : env.acceptIpc ≠ pgInvalidSocket
  room : m.rmWaitSet.used ≠ m.rmWaitSet.waitSet.neventsSpace
  stale : nextWaitEventPos m.rmWaitSet ∈ m.idleList

/-- The step accepts no connection into a slot that the ring still names. -/
def NoStaleReuse (m : Master) : Label → Prop
  | .handle env => ∀ ev evs, m.batch = ev :: evs → ¬ StaleReuse m env ev
  | _ => True

/-- No connection is sent more clients than it has sent whole hellos, and every ring entry that
    names a backend names one that has said hello since its last client. -/
structure HelloFirst (m : Master) : Prop where
  counts : ∀ b, m.sentTo b ≤ completeHellos (m.stream b)
  ring : RingOk m

theorem IdleOk.helloFirst (h : IdleOk m) (hf : Framed m) : HelloFirst m :=
  ⟨fun b => (Nat.le_add_right _ _).trans ((h.counts b).trans (hf.counted b)), h.hello⟩

/-- A batch does not read from an idle worker, as no idle worker is registered for that. -/
theorem IdleOk.wait (h : IdleOk m) (ht : Table m) {evs : List WaitEvent} (hr : Ready m evs) :
    IdleOk { m with batch := evs } := by
  refine ⟨h.ring, h.nodup, h.hello, h.quiet, h.counts, fun ev hev hread hty hk => ?_, ?_⟩
  · have hq := h.quiet _ hk hty
    obtain ⟨-, -, hsub⟩ := hr.registered ev hev
    rw [(hr.inRange ht ev hev).1] at hq
    have := hsub.2.1 hread
    simp only [Master.interest] at hq
    rw [hq] at this; cases this
  · have hmap : evs.map WaitEvent.userData = evs.map WaitEvent.pos :=
      List.map_congr_left fun ev hev => (hr.inRange ht ev hev).1
    rw [hmap]; exact hr.nodup

theorem handleEvent_idleOk (ht : Table m) (hn : Names m)
    (h : IdleOk { m with batch := ev :: m.batch }) (hk : m.inRange ev.userData) (hf : Fresh m env)
    (hh : m.halted = false) (hC : ¬ StaleReuse m env ev) : IdleOk (handleEvent m env ev) := by
  have h' : IdleOk m := ⟨h.ring, h.nodup, h.hello, h.quiet, h.counts,
    fun e he => h.batch e (List.mem_cons_of_mem _ he), (List.nodup_cons.1 h.once).2⟩
  refine handleEvent_rule ht hk hf hh (fun _ _ => h'.rest) ?_
  rintro hrun m₁ - hl ht₁ hf₁
  have hn₁ := Prims.names hl.prims hn
  obtain ⟨-, n, hs, d, rfl⟩ := hl
  have h₁ : IdleOk { m with numWorkers := n, workerHandles := hs, workerDied := d } := h'.rest
  unfold handler
  cases hty : (m.sockets ev.userData).type with
  | unset => exact h₁
  | ipc =>
    by_cases hr : ev.events.readable = true ∧ env.acceptIpc ≠ pgInvalidSocket
    · exact onBackendConnect_idleOk h₁ ht₁ fun hroom hstale =>
        hC ⟨hrun, hty, hr.1, hr.2, hroom, hstale⟩
    · have hidle : ev.events.readable = false ∨ env.acceptIpc = pgInvalidSocket := by
        by_cases h1 : ev.events.readable = true
        · exact .inr (not_not.1 fun h2 => hr ⟨h1, h2⟩)
        · exact .inl (Bool.eq_false_iff.2 h1)
      simp only
      rw [onBackendConnect_idle hidle]; exact h₁
  | frontend => exact onFrontend_idleOk h₁ ht₁ hn₁ hf₁
  | backend =>
    refine onBackend_idleOk h₁ ht₁ hn₁ ⟨hk, hty⟩ (fun hr => h.batch ev List.mem_cons_self hr hty) ?_
    intro ev' hev' he
    exact (List.nodup_cons.1 h.once).1 (he ▸ List.mem_map_of_mem hev')

/-- A new connection in a slot of the ring has not said hello. -/
theorem not_ringOk_of_stale (hn : Names m) (hb : b ∉ m.backends)
    (hstale : nextWaitEventPos m.rmWaitSet ∈ m.idleList) :
    ¬ RingOk ((m.emit (.acceptBackend b)).openSocket .backend b events) := by
  intro hring
  set m' := (m.emit (.acceptBackend b)).openSocket .backend b events with hm'
  have hty : (m'.sockets (nextWaitEventPos m.rmWaitSet)).type = .backend := openSocket_next.1
  have hfd : (m'.sockets (nextWaitEventPos m.rmWaitSet)).fd = b := openSocket_next.2
  have hslot := hring (nextWaitEventPos m.rmWaitSet) hstale hty
  have hno : saidHello b m'.trace = false := hn.saidHello hb
  rw [hfd, hno] at hslot
  cases hslot

theorem StaleReuse.not_ringOk (hC : StaleReuse m env ev) (ht : Table m) (hn : Names m)
    (hk : m.inRange ev.userData) (hf : Fresh m env) (hh : m.halted = false) :
    ¬ RingOk (handleEvent m env ev) := by
  refine handleEvent_rule (I := fun m' => ¬ RingOk m') ht hk hf hh ?_ ?_
  · intro h1 h2
    have := hC.running h1
    simp [h2] at this
  · rintro - m₁ - hl ht₁ hf₁
    have hn₁ := Prims.names hl.prims hn
    obtain ⟨-, n, hs, d, rfl⟩ := hl
    have hb : env.acceptIpc ∉ m.backends := fun hb => hf.ipc (backends_sub_opened hb)
    simp only [handler, hC.ipc]
    rw [onBackendConnect_accept ht₁ hC.ready hC.valid]
    simp only [hC.room, if_false]
    exact not_ringOk_of_stale hn₁ hb hC.stale

theorem Step.idleOk {l : Label} (hs : Step m l m') (ht : Table m) (hn : Names m) (h : IdleOk m) :
    (NoStaleReuse m l → IdleOk m') ∧ (¬ NoStaleReuse m l → ¬ RingOk m') := by
  cases hs with
  | wait _ _ hr => exact ⟨fun _ => h.wait ht hr, fun hC => absurd trivial hC⟩
  | sigusr1 => exact ⟨fun _ => h.rest, fun hC => absurd trivial hC⟩
  | sigterm =>
    exact ⟨fun _ => ⟨h.ring, h.nodup, h.hello, h.quiet, h.counts, h.batch, h.once⟩,
      fun hC => absurd trivial hC⟩
  | @handle env ev evs hb hh hf =>
    have ht' := ht.tail hb
    have hn' := hn.tail evs
    have hk := ht.head hb
    have hf' : Fresh { m with batch := evs } env := ⟨hf.ipc, hf.client⟩
    have h' : IdleOk { m with batch := ev :: evs } := by rw [← hb]; exact h
    have hsame : StaleReuse { m with batch := evs } env ev ↔ StaleReuse m env ev :=
      ⟨fun h => ⟨h.running, h.ipc, h.ready, h.valid, h.room, h.stale⟩,
        fun h => ⟨h.running, h.ipc, h.ready, h.valid, h.room, h.stale⟩⟩
    refine ⟨fun hC => handleEvent_idleOk ht' hn' h' hk hf' hh fun hr => hC ev evs hb (hsame.1 hr),
      fun hC => ?_⟩
    have hr : StaleReuse m env ev := by
      by_contra hr
      refine hC fun ev' evs' hb' hr' => ?_
      cases hb.symm.trans hb'
      exact hr hr'
    exact (hsame.2 hr).not_ringOk ht' hn' hk hf' hh

theorem startup_idleOk (cfg : Setup) : IdleOk (startup cfg) := by
  have hst := startup_started cfg
  have hpos : 0 < (startup cfg).totalSockets := by
    obtain ⟨h0, h1⟩ := (startup_table cfg).idle 0
    omega
  have hlist : (startup cfg).idleList = [] := by simp [Master.idleList, hst.idle]
  refine ⟨by rw [hst.idle]; exact RingBuf.wf_empty hpos, by simp [hlist], by simp [RingOk, hlist],
    by simp [hlist], fun b => ?_, by simp [hst.batch], by simp [hst.batch]⟩
  have hsent : (startup cfg).sentTo b = 0 := by
    refine List.countP_eq_zero.2 fun a ha hs => ?_
    obtain ⟨fd, rfl⟩ := hst.trace a ha
    cases hs
  have hb : b ∉ (startup cfg).backends := by
    rw [hst.backends]
    exact List.not_mem_nil
  rw [hsent, (startup_names cfg).saidHello hb]
  exact Nat.zero_le _

/-- **No connection is sent more clients than it has said hello, exactly along the runs that never
    reuse a slot the ring still names**: `close_socket` does not take its slot off the ring. -/
theorem hello_first_iff_no_stale_reuse {cfg : Setup} {h : List (Master × Label)}
    (hr : Run Step (startup cfg) h m) : Always HelloFirst h m ↔ Meets NoStaleReuse h := by
  refine hr.always_iff_meets (I := fun m => Table m ∧ Names m ∧ Framed m ∧ IdleOk m)
    ⟨startup_table cfg, startup_names cfg, startup_framed cfg, startup_idleOk cfg⟩
    ((startup_idleOk cfg).helloFirst (startup_framed cfg)) ?_ ?_
  · rintro m l m' ⟨ht, hn, hfr, hi⟩ - hC hs
    have hfr' := hs.framed ht hn hfr
    have hi' := (hs.idleOk ht hn hi).1 hC
    exact ⟨⟨hs.table ht, hs.names ht hn, hfr', hi'⟩, hi'.helloFirst hfr'⟩
  · rintro m l m' ⟨ht, hn, -, hi⟩ - hC hs hP
    exact (hs.idleOk ht hn hi).2 hC hP.ring

/-- Worker 20 says hello in slot 3 and hangs up; worker 21 connects into slot 4 and worker 22 into
    slot 3.  Then client 10 arrives. -/
def staleSlotRun : List Label :=
  [.wait [readable 1], .handle { acceptIpc := 20 },
    .wait [readable 3], .handle { recv := some (backendHello ++ [0, 0, 0, 0]) },
    .wait [⟨3, wlSocketClosed, 3⟩], .handle {},
    .wait [readable 1], .handle { acceptIpc := 21 },
    .wait [readable 1], .handle { acceptIpc := 22 },
    .wait [readable 2], .handle { acceptClient := 10, sendmsg := fun _ => true }]

/-- Worker 22 is sent the client though it has not said a word. -/
theorem client_sent_without_hello : ∃ m, Reach Step (startup smallSetup) m ∧
    .sent 22 10 ∈ m.trace ∧ m.stream 22 = [] ∧ m.sentTo 22 = 1 ∧ ¬ HelloFirst m := by
  have hexec : (execs next (startup smallSetup) staleSlotRun).any (fun m =>
      .sent 22 10 ∈ m.trace ∧ m.stream 22 = [] ∧ m.sentTo 22 = 1) = true := by decide
  obtain ⟨m, hr, hp⟩ := exists_reach_of_execs (fun _ _ _ => step_of_next) hexec
  obtain ⟨h1, h2, h3⟩ := of_decide_eq_true hp
  refine ⟨m, hr, h1, h2, h3, fun h => ?_⟩
  have := h.counts 22
  rw [h2, h3] at this
  exact absurd this (by decide)

/-- A worker that connects to a fresh slot and says hello is rightly idle. -/
theorem first_worker_idle : ∃ h m, Run Step (startup smallSetup) h m ∧ m.idleList = [3] ∧
    Always HelloFirst h m := by
  have h1 : Step (startup smallSetup) (.wait [readable 1]) _ :=
    .wait (by decide) (by decide) (by decide)
  have h2 : Step { startup smallSetup with batch := [readable 1] } (.handle { acceptIpc := 20 }) _ :=
    .handle rfl (by decide) (by decide)
  have h3 : Step (handleEvent (startup smallSetup) { acceptIpc := 20 } (readable 1))
      (.wait [readable 3]) _ := .wait (by decide) (by decide) (by decide)
  have h4 : Step { handleEvent (startup smallSetup) { acceptIpc := 20 } (readable 1) with
      batch := [readable 3] } (.handle { recv := some (backendHello ++ [0, 0, 0, 0]) }) _ :=
    .handle rfl (by decide) (by decide)
  have hr := Run.snoc (.snoc (.snoc (.snoc .nil h1) h2) h3) h4
  refine ⟨_, _, hr, by decide, (hello_first_iff_no_stale_reuse hr).2 ?_⟩
  simp only [meets_cons, meets_nil, and_true, NoStaleReuse, true_and]
  constructor
  · rintro ev evs he hq
    cases he
    exact absurd hq.ipc (by decide)
  · rintro ev evs he hq
    cases he
    exact absurd hq.stale (by decide)

end Rustica
