/-
  The capacity of the idle ring.

  `idle_workers` has a cell for every slot.  A worker is put into it when it has said hello, and taken
  out when a client arrives; `close_socket` leaves it there.  So workers that come and go fill the
  ring, and the push into a full one overwrites the oldest entry (`idle_bounded_iff`).  Where no slot
  is reused while the ring names it, there is always a free cell (`idle_bounded_of_noStaleReuse`).
-/
import Rustica.Idle

namespace Rustica

open Exec

variable {m m' : Master} {k : ℤ} {env : Env} {ev : WaitEvent} {events : Events}

/-- The event makes `on_backend` note a worker as idle: it completes a hello, and no client is
    queued. -/
structure NotesIdle (m : Master) (env : Env) (ev : WaitEvent) : Prop where
  running : ev.events.latchSet = true → m.shutdownRequested = false
  backend : (m.sockets ev.userData).type = .backend
  hello : Completes (m.sockets ev.userData) env ev.events
  noJob : m.jobs.size = 0

/-- There are no more entries than cells. -/
def IdleBounded (m : Master) : Prop := m.idle.size ≤ m.totalSockets

/-- A worker that is noted as idle gets a cell that is free: `Assert(idle_qsize < total_sockets)`
    holds, and no entry is lost. -/
def PushesFree (m : Master) : Label → Prop
  | .handle env => ∀ ev evs, m.batch = ev :: evs → NotesIdle m env ev →
      m.idle.size < m.totalSockets ∧
        (handleEvent { m with batch := evs } env ev).idleList = m.idleList ++ [ev.userData]
  | _ => True

/-- No worker is noted as idle when as many entries as there are slots, those of closed connections
    among them, wait for a client. -/
def NoneWhenFull (m : Master) : Label → Prop
  | .handle env => ∀ ev evs, m.batch = ev :: evs → NotesIdle m env ev →
      m.idle.size ≠ m.totalSockets
  | _ => True

/-! ## What handlers do to the ring -/

theorem onBackendConnect_idle_eq : (onBackendConnect m env events).idle = m.idle := by
  unfold onBackendConnect
  split
  · rfl
  · split
    · rfl
    · dsimp only
      split <;> rfl

theorem enqueue_idle_eq {c : Pgsocket} : (enqueue m c).idle = m.idle := by
  unfold enqueue
  split
  · dsimp only
    split
    · obtain ⟨s, hs⟩ := modifyFrontends_rest { m with
        jobs := m.jobs.push jobQlen c, frontendPaused := true } wlSocketClosed
      rw [hs]
    · rfl
  · rfl

/-- A client takes entries out only. -/
theorem onFrontend_idle_le (ht : Table m) (hf : Fresh m env) :
    (onFrontend m env events).idle.size ≤ m.idle.size := by
  have hrule := onFrontend_rule events (I := fun m' => m'.idle.size ≤ m.idle.size) ht hf le_rfl
    (fun m' _ h _ _ => (Nat.sub_le _ 1).trans h) (fun m' _ _ _ _ h => (Nat.sub_le _ 1).trans h)
  rcases hrule with ⟨-, he⟩ | ⟨-, m', -, -, h, hs⟩
  · rw [he]
  refine le_trans ?_ h
  generalize onFrontend m env events = m₁ at hs
  cases hs with
  | handed _ _ _ => exact Nat.sub_le _ 1
  | kept _ =>
    obtain ⟨seq, n, hs, he⟩ := spawnWorker_rest m' env
    rw [enqueue_idle_eq, he]

theorem Incomplete.idle_eq (h : Incomplete m env k events m') : m'.idle = m.idle := by
  cases h <;> rfl

theorem resumeFrontends_idle : (resumeFrontends m).idle = m.idle := by
  unfold resumeFrontends
  split
  · obtain ⟨s, hs⟩ := modifyFrontends_rest { m with frontendPaused := false } wlSocketAccept
    rw [hs]
  · rfl

/-- **A complete hello** is noted as idle exactly when no client is queued. -/
theorem Greeted.idle_eq (h : Greeted m env k m') : m'.idle =
    if m.jobs.size = 0 then m.idle.push m.totalSockets (m.sockets k).pos else m.idle := by
  cases h with
  | idle h0 => rw [if_pos h0]
  | sent hpos _ => rw [if_neg hpos.ne', resumeFrontends_idle]; rfl
  | failed hpos _ => rw [if_neg hpos.ne']; rfl

theorem onBackend_idle_of_completes (hc : Completes (m.sockets k) env events) :
    (onBackend m env k events).idle =
      if m.jobs.size = 0 then m.idle.push m.totalSockets (m.sockets k).pos else m.idle := by
  rcases onBackend_cases m env k events with ⟨hno, -⟩ | ⟨-, bytes, -, hs⟩
  · exact absurd hc hno
  · have hpos : ((helloState m k bytes).sockets k).pos = (m.sockets k).pos := by
      rw [helloState, Master.setSocket_self]
    rw [hs, (onHello_cases (helloState m k bytes) env k).idle_eq, hpos]
    rfl

/-- What the handler of an event does to the ring. -/
theorem handler_idle (events : Events) (ht : Table m) (hk : m.inRange k) (hf : Fresh m env) :
    ((m.sockets k).type = .backend ∧ Completes (m.sockets k) env events ∧ m.jobs.size = 0 →
      (handler m env k events).idle = m.idle.push m.totalSockets k) ∧
    (¬ ((m.sockets k).type = .backend ∧ Completes (m.sockets k) env events ∧ m.jobs.size = 0) →
      (handler m env k events).idle.size ≤ m.idle.size) := by
  constructor
  · rintro ⟨hty, hc, h0⟩
    simp only [handler, hty]
    rw [onBackend_idle_of_completes hc, if_pos h0, ht.live_pos ⟨hk, hty⟩]
  · intro hno
    cases hty : (m.sockets k).type with
    | unset =>
      simp only [handler, hty]
      exact le_rfl
    | ipc =>
      simp only [handler, hty, onBackendConnect_idle_eq]
      exact le_rfl
    | frontend =>
      simp only [handler, hty]
      exact onFrontend_idle_le ht hf
    | backend =>
      simp only [handler, hty]
      rcases onBackend_cases m env k events with ⟨-, hi⟩ | ⟨hc, -⟩
      · rw [hi.idle_eq]
      · rw [onBackend_idle_of_completes hc, if_neg fun h0 => hno ⟨hty, hc, h0⟩]

/-- **Only a worker that is noted as idle** is put into the ring. -/
theorem handleEvent_idle (ht : Table m) (hk : m.inRange ev.userData) (hf : Fresh m env)
    (hh : m.halted = false) :
    (NotesIdle m env ev → (handleEvent m env ev).idle = m.idle.push m.totalSockets ev.userData) ∧
      (¬ NotesIdle m env ev → (handleEvent m env ev).idle.size ≤ m.idle.size) := by
  refine handleEvent_rule (I := fun m' =>
    (NotesIdle m env ev → m'.idle = m.idle.push m.totalSockets ev.userData) ∧
      (¬ NotesIdle m env ev → m'.idle.size ≤ m.idle.size)) ht hk hf hh ?_ ?_
  · intro h1 h2
    refine ⟨fun h => ?_, fun _ => le_rfl⟩
    have := h.running h1
    simp [h2] at this
  · rintro hrun m₁ - hl ht₁ hf₁
    obtain ⟨-, n, hs, d, rfl⟩ := hl
    obtain ⟨hpush, hle⟩ := handler_idle ev.events ht₁ hk hf₁
    exact ⟨fun h => hpush ⟨h.backend, h.hello, h.noJob⟩,
      fun h => hle fun h' => h ⟨hrun, h'.1, h'.2.1, h'.2.2⟩⟩

/-! ## Along runs -/

/-- In a step the ring takes at most one entry, that of a worker noted as idle. -/
theorem Step.idleBounded {l : Label} (hs : Step m l m') (ht : Table m) (h : IdleBounded m) :
    (NoneWhenFull m l → IdleBounded m' ∧ PushesFree m l) ∧
      (¬ NoneWhenFull m l → ¬ IdleBounded m') := by
  cases hs with
  | wait _ _ _ | sigusr1 | sigterm => exact ⟨fun _ => ⟨h, trivial⟩, fun hno => absurd trivial hno⟩
  | @handle env ev evs hb hh hf =>
    have hsame : NotesIdle { m with batch := evs } env ev ↔ NotesIdle m env ev :=
      ⟨fun h => ⟨h.running, h.backend, h.hello, h.noJob⟩,
        fun h => ⟨h.running, h.backend, h.hello, h.noJob⟩⟩
    obtain ⟨hpush, hle⟩ := handleEvent_idle (ht.tail hb) (ht.head hb)
      (⟨hf.ipc, hf.client⟩ : Fresh { m with batch := evs } env) hh
    have htot : (handleEvent { m with batch := evs } env ev).totalSockets = m.totalSockets :=
      Prims.totalSockets_eq (m := { m with batch := evs })
        (handleEvent_prims (ht.tail hb) (ht.head hb) ⟨hf.ipc, hf.client⟩ hh)
    rw [hsame] at hpush hle
    constructor
    · intro hC
      constructor
      · rw [IdleBounded, htot]
        by_cases hn : NotesIdle m env ev
        · have hlt : m.idle.size < m.totalSockets := lt_of_le_of_ne h (hC ev evs hb hn)
          rw [hpush hn, RingBuf.size_push]
          exact hlt
        · exact (hle hn).trans h
      · rintro ev' evs' hb' hn
        cases hb.symm.trans hb'
        have hlt : m.idle.size < m.totalSockets := lt_of_le_of_ne h (hC ev evs hb hn)
        refine ⟨hlt, ?_⟩
        rw [Master.idleList, htot, hpush hn]
        exact RingBuf.toList_push ht.ring hlt
    · intro hno hB
      refine hno fun ev' evs' hb' hn hfull => ?_
      cases hb.symm.trans hb'
      rw [IdleBounded, htot, hpush hn, RingBuf.size_push, hfull] at hB
      omega

/-- Distinct slots are no more than there are. -/
theorem IdleOk.bounded (h : IdleOk m) (ht : Table m) : IdleBounded m := by
  have hle := length_le_totalSockets h.nodup fun k => ht.idleList_inRange
  rw [Master.idleList, RingBuf.length_toList] at hle
  exact hle

/-- **Where no slot is reused** while the ring still names it, the ring has room. -/
theorem idle_bounded_of_noStaleReuse {cfg : Setup} {h : List (Master × Label)}
    (hr : Run Step (startup cfg) h m) (hC : Meets NoStaleReuse h) : Always IdleBounded h m := by
  refine (hr.always_of_meets (I := fun m => Table m ∧ Names m ∧ IdleOk m)
    ⟨startup_table cfg, startup_names cfg, startup_idleOk cfg⟩ ?_ hC).imp
    fun m hm => hm.2.2.bounded hm.1
  rintro m l m' ⟨ht, hn, hi⟩ hC hs
  exact ⟨hs.table ht, hs.names ht hn, (hs.idleOk ht hn hi).1 hC⟩

/-- Six workers connect to the slots 3 and 4 in turn, say hello and hang up. -/
def comeAndGoRun : List Label := (List.range 6).flatMap fun i =>
  let k : ℤ := if i % 2 = 0 then 3 else 4
  [.wait [readable 1], .handle { acceptIpc := 20 + i },
    .wait [readable k], .handle { recv := some (backendHello ++ [0, 0, 0, 0]) },
    .wait [⟨k, wlSocketClosed, k⟩], .handle {}]

end Rustica
