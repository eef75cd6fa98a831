/-
  Flow control.

  `on_frontend` queues a client that no idle worker takes, and pauses the listeners when the queue is
  full; `on_backend` hands a queued client to the worker that says hello, and lets the listeners accept
  again.  `FlowControl` is what the two keep between them.  Accepts that the batch still holds after a
  pause find the queue full, and are closed.
-/
import Rustica.Spawn

namespace Rustica

open Exec

variable {m m' : Master} {k : ℤ} {env : Env} {ev : WaitEvent} {c : Pgsocket} {events : Events}

/-- The two queues, the pause flag and the listeners between two handler calls. -/
structure FlowControl (m : Master) : Prop where
  oneEmpty : m.idle.size = 0 ∨ m.jobs.size = 0
  tail : m.jobs.tail = (m.jobs.head + m.jobs.size) % jobQlen
  size_le : m.jobs.size ≤ jobQlen
  paused : m.frontendPaused = true ↔ m.jobs.size = jobQlen
  frontend : ∀ k, m.inRange k → (m.sockets k).type = .frontend →
    m.used k ∧ m.interest k = if m.frontendPaused then wlSocketClosed else wlSocketAccept

/-- The part of it that the socket table says nothing of. -/
structure Balanced (m : Master) : Prop where
  oneEmpty : m.idle.size = 0 ∨ m.jobs.size = 0
  paused : m.frontendPaused = true ↔ m.jobs.size = jobQlen

/-- The queues and the pause flag are left alone. -/
structure SameFlow (m m' : Master) : Prop where
  idle : m'.idle = m.idle
  jobs : m'.jobs = m.jobs
  frontendPaused : m'.frontendPaused = m.frontendPaused

theorem Balanced.frame (h : Balanced m) (hs : SameFlow m m') : Balanced m' := by
  refine ⟨?_, ?_⟩
  · rw [hs.idle, hs.jobs]; exact h.oneEmpty
  · rw [hs.frontendPaused, hs.jobs]; exact h.paused

theorem modifyFrontends_sameFlow (m : Master) (events : Events) :
    SameFlow m (m.modifyFrontends events) := by
  obtain ⟨s, hs⟩ := modifyFrontends_rest m events
  rw [hs]; exact ⟨rfl, rfl, rfl⟩

/-! ## The handlers -/

theorem onBackendConnect_sameFlow (ht : Table m) : SameFlow m (onBackendConnect m env events) :=
  onBackendConnect_rule events ht ⟨rfl, rfl, rfl⟩ (fun _ _ _ => ⟨rfl, rfl, rfl⟩)
    fun _ _ _ => ⟨rfl, rfl, rfl⟩

theorem Latched.sameFlow (h : Latched m m') : SameFlow m m' := by
  obtain ⟨-, n, hs, d, rfl⟩ := h
  exact ⟨rfl, rfl, rfl⟩

theorem Incomplete.sameFlow (h : Incomplete m env k events m') : SameFlow m m' := by
  cases h <;> exact ⟨rfl, rfl, rfl⟩

theorem Balanced.popIdle (h : Balanced m) : Balanced m.popIdle := by
  refine ⟨h.oneEmpty.imp_left fun h0 => ?_, h.paused⟩
  change m.idle.size - 1 = 0
  omega

/-- **A queued client fills the last cell exactly when the listeners are paused.**  The loop over the
    idle ring has emptied it. -/
theorem Balanced.enqueue (h : Balanced m) (h0 : m.idle.size = 0) : Balanced (enqueue m c) := by
  unfold Rustica.enqueue
  split
  · rename_i hlt
    have hrun : m.frontendPaused ≠ true := fun hp => hlt.ne (h.paused.1 hp)
    dsimp only
    split
    · rename_i hfull
      have hpaused : Balanced { m with jobs := m.jobs.push jobQlen c, frontendPaused := true } :=
        ⟨.inl h0, iff_of_true rfl hfull⟩
      exact hpaused.frame (modifyFrontends_sameFlow _ _)
    · exact ⟨.inl h0, iff_of_false hrun ‹_›⟩
  · exact h.frame ⟨rfl, rfl, rfl⟩

theorem Balanced.onFrontend (h : Balanced m) (ht : Table m) (hf : Fresh m env) :
    Balanced (onFrontend m env events) := by
  have hrule := onFrontend_rule events (I := Balanced) ht hf (h.frame ⟨rfl, rfl, rfl⟩)
    (fun m' _ hm' _ _ => hm'.popIdle) (fun m' _ _ _ _ hm' => hm'.popIdle.frame ⟨rfl, rfl, rfl⟩)
  rcases hrule with ⟨-, he⟩ | ⟨-, m', -, -, hm', hs⟩
  · rw [he]; exact h
  generalize Rustica.onFrontend m env events = m₁ at hs
  cases hs with
  | handed _ _ _ => exact hm'.popIdle.frame ⟨rfl, rfl, rfl⟩
  | kept h0 =>
    obtain ⟨seq, n, hs, he⟩ := spawnWorker_rest m' env
    rw [he]
    exact Balanced.enqueue (hm'.frame ⟨rfl, rfl, rfl⟩) h0

/-- After a client has left the queue the listeners accept. -/
theorem Balanced.resume (h0 : m.idle.size = 0) (hlt : m.jobs.size < jobQlen) :
    Balanced (resumeFrontends m) := by
  unfold resumeFrontends
  split
  · have hrun : Balanced { m with frontendPaused := false } :=
      ⟨.inl h0, iff_of_false (by simp) hlt.ne⟩
    exact hrun.frame (modifyFrontends_sameFlow _ _)
  · exact ⟨.inl h0, iff_of_false ‹_› hlt.ne⟩

theorem Greeted.balanced (hs : Greeted m env k m') (h : Balanced m) (hle : m.jobs.size ≤ jobQlen) :
    Balanced m' := by
  cases hs with
  | idle h0 => exact ⟨.inr h0, h.paused⟩
  | sent hpos _ =>
    have hidle : m.idle.size = 0 := h.oneEmpty.resolve_right hpos.ne'
    refine Balanced.resume hidle ?_
    change m.jobs.size - 1 < jobQlen
    omega
  | failed _ _ => exact h.frame ⟨rfl, rfl, rfl⟩

theorem Balanced.onBackend (h : Balanced m) (hle : m.jobs.size ≤ jobQlen) :
    Balanced (onBackend m env k events) := by
  rcases onBackend_cases m env k events with ⟨-, hi⟩ | ⟨-, bytes, -, he⟩
  · exact h.frame hi.sameFlow
  · rw [he]
    have hstate : Balanced (helloState m k bytes) := h.frame ⟨rfl, rfl, rfl⟩
    exact (onHello_cases _ env k).balanced hstate hle

theorem Balanced.handler (h : Balanced m) (ht : Table m) (hn : Names m) (hf : Fresh m env) :
    Balanced (handler m env k events) := by
  unfold Rustica.handler
  split
  · exact h
  · exact h.frame (onBackendConnect_sameFlow ht)
  · exact h.onFrontend ht hf
  · exact h.onBackend hn.jobs_le

/-! ## Along runs -/

theorem Step.balanced {l : Label} (hs : Step m l m') (ht : Table m) (hn : Names m)
    (h : Balanced m) : Balanced m' := by
  cases hs with
  | wait _ _ _ | sigusr1 | sigterm => exact h.frame ⟨rfl, rfl, rfl⟩
  | @handle env ev evs hb hh hf =>
    have hm : Balanced { m with batch := evs } := h.frame ⟨rfl, rfl, rfl⟩
    refine handleEvent_rule (ht.tail hb) (ht.head hb) ⟨hf.ipc, hf.client⟩ hh
      (fun _ _ => h.frame ⟨rfl, rfl, rfl⟩) fun _ m₁ _ hl ht₁ hf₁ => ?_
    have hn₁ := Prims.names hl.prims (hn.tail evs)
    exact (hm.frame hl.sameFlow).handler ht₁ hn₁ hf₁

theorem startup_balanced (cfg : Setup) : Balanced (startup cfg) := by
  have hst := startup_started cfg
  refine ⟨.inl ?_, ?_⟩
  · rw [hst.idle]; rfl
  · rw [hst.frontendPaused, hst.jobs]
    exact iff_of_false (by simp) (by simp [jobQlen])

/-- **The queues and the listeners are in step in every reachable state**, between the events of a
    batch too: clients and idle workers never wait at the same time, the job ring holds what its two
    indices say, and the listeners accept exactly as long as it has room. -/
theorem flow_control {cfg : Setup} (hr : Reach Step (startup cfg) m) : FlowControl m := by
  have hinv : (Table m ∧ Names m) ∧ Crew m ∧ Balanced m := by
    refine hr.inv (I := fun m => (Table m ∧ Names m) ∧ Crew m ∧ Balanced m)
      ⟨⟨startup_table cfg, startup_names cfg⟩, startup_crew cfg, startup_balanced cfg⟩ ?_
    rintro m l m' ⟨⟨ht, hn⟩, hc, hb⟩ hs
    exact ⟨⟨hs.table ht, hs.names ht hn⟩, hs.crew ht hc, hs.balanced ht hn hb⟩
  obtain ⟨⟨ht, hn⟩, hc, hb⟩ := hinv
  exact ⟨hb.oneEmpty, hn.jobs.tail_eq, hn.jobs_le, hb.paused, fun k hk hty =>
    ⟨ht.frontend_used hk hty, hc.listening.frontend k hk hty⟩⟩

/-- Two clients arrive in one batch, and the first is queued: the second accept is still pending. -/
theorem flow_control_mid_batch : ∃ m, Reach Step (startup smallSetup) m ∧ m.batch ≠ [] ∧
    m.queue = [10] ∧ FlowControl m := by
  have h1 : Step (startup smallSetup) (.wait [readable 2, readable 1]) _ :=
    .wait (by decide) (by decide) (by decide)
  have h2 : Step { startup smallSetup with batch := [readable 2, readable 1] }
      (.handle { acceptClient := 10 }) _ := .handle rfl (by decide) (by decide)
  have hr := (Reach.refl.snoc h1).snoc h2
  exact ⟨_, hr, by decide, by decide, flow_control hr⟩

end Rustica
