/-
  Clients on their way to a worker.

  Each client that the master has sent over a connection is either taken by the worker at its other
  end, in the order of sending, or still on its way (`Conserved`).  A worker whose wait for a client
  has timed out takes no more of them; but the master is not told, and what it sends from then on
  is lost.
-/
import Rustica.Worker

namespace Rustica

open Exec

variable {m m' : Master} {w w' : World} {i j : ℕ} {a : Act} {acts t : List Act} {b c : Pgsocket}
  {idleTimeout : ℕ}

/-- The client that the act sends to worker `i`. -/
def sentTo (peer : Pgsocket → Option ℕ) (i : ℕ) : Act → Option Pgsocket
  | .sent b c => if peer b = some i then some c else none
  | _ => none

/-- The clients sent to worker `i` so far, the first one first. -/
def World.dispatched (w : World) (i : ℕ) : List Pgsocket :=
  (w.master.trace.filterMap (sentTo w.peer i)).reverse

/-- The clients of the trace `t` are taken or on their way. -/
structure Conserved (t : List Act) (w : World) : Prop where
  known : ∀ b c, .sent b c ∈ t → (w.peer b).isSome
  clients : ∀ i, (t.filterMap (sentTo w.peer i)).reverse =
    (w.worker i).taken ++ (w.worker i).toWorker
  state : ∀ i, (w.worker i).state = waitRead

/-! ## Delivery -/

/-- What the delivery of an act changes. -/
structure Delivered (w : World) (a : Act) (w' : World) : Prop where
  master : w'.master = w.master
  peer : ∀ b j, w.peer b = some j → w'.peer b = some j
  known : ∀ b c, a = .sent b c → (w'.peer b).isSome
  toWorker : ∀ j, (w'.worker j).toWorker =
    (w.worker j).toWorker ++ (sentTo w'.peer j a).toList
  rest : ∀ j, (w'.worker j).pc = (w.worker j).pc ∧ (w'.worker j).state = (w.worker j).state ∧
    (w'.worker j).taken = (w.worker j).taken

@[simp] theorem setWorker_self (w : World) (i : ℕ) (p : Worker) :
    (w.setWorker i p).worker i = p := by
  simp [World.setWorker]

theorem setWorker_of_ne (w : World) (p : Worker) (h : j ≠ i) :
    (w.setWorker i p).worker j = w.worker j := by
  simp [World.setWorker, h]

@[simp] theorem setWorker_master (w : World) (i : ℕ) (p : Worker) :
    (w.setWorker i p).master = w.master := rfl

@[simp] theorem setWorker_peer (w : World) (i : ℕ) (p : Worker) :
    (w.setWorker i p).peer = w.peer := rfl

/-- The act is delivered over the connection of worker `i`. -/
theorem Delivered.set {p : Worker} {peer : Pgsocket → Option ℕ}
    (hpeer : ∀ b j, w.peer b = some j → peer b = some j)
    (hknown : ∀ b c, a = .sent b c → (peer b).isSome)
    (hp : p.pc = (w.worker i).pc ∧ p.state = (w.worker i).state ∧ p.taken = (w.worker i).taken)
    (hto : p.toWorker = (w.worker i).toWorker ++ (sentTo peer i a).toList)
    (hne : ∀ j ≠ i, sentTo peer j a = none) :
    Delivered w a ({ w with peer := peer }.setWorker i p) := by
  refine ⟨rfl, hpeer, hknown, fun j => ?_, fun j => ?_⟩ <;> by_cases hj : j = i
  · subst hj
    rw [setWorker_self]; exact hto
  · rw [setWorker_of_ne _ _ hj, setWorker_peer, hne j hj]
    exact (List.append_nil _).symm
  · subst hj
    rw [setWorker_self]; exact hp
  · rw [setWorker_of_ne _ _ hj]
    exact ⟨rfl, rfl, rfl⟩

/-- **Inversion of a delivery.** -/
theorem deliver_delivered (h : w.deliver i a = some w') : Delivered w a w' := by
  have hself : ∀ j : ℕ, (∀ peer k, sentTo peer k a = none) → (∀ b c, a ≠ .sent b c) →
      ∀ p : Worker, p.pc = (w.worker j).pc ∧ p.state = (w.worker j).state ∧
        p.taken = (w.worker j).taken → p.toWorker = (w.worker j).toWorker →
      Delivered w a (w.setWorker j p) := by
    intro j hnone ha p hp hto
    exact .set (fun _ _ h => h) (fun b c h => absurd h (ha b c)) hp
      (by rw [hnone, hto]; exact (List.append_nil _).symm) fun k _ => hnone _ k
  have hquiet : (∀ peer k, sentTo peer k a = none) → (∀ b c, a ≠ .sent b c) →
      Delivered w a w := by
    intro hnone ha
    refine ⟨rfl, fun _ _ h => h, fun b c h => absurd h (ha b c), fun j => ?_,
      fun _ => ⟨rfl, rfl, rfl⟩⟩
    rw [hnone]; exact (List.append_nil _).symm
  cases a with
  | acceptBackend b =>
    simp only [World.deliver] at h
    split at h
    · rename_i hg
      cases h
      refine .set (fun b' j hb' => ?_) nofun ⟨rfl, rfl, rfl⟩ (List.append_nil _).symm fun _ _ => rfl
      rw [Function.update_of_ne]
      · exact hb'
      · rintro rfl
        rw [hg.1] at hb'; cases hb'
    · cases h
  | received b bytes =>
    simp only [World.deliver] at h
    split at h
    · rename_i j hj
      split at h
      · cases h
        exact hself j (fun _ _ => rfl) nofun _ ⟨rfl, rfl, rfl⟩ rfl
      · cases h
    · cases h
  | sent b c =>
    simp only [World.deliver] at h
    split at h
    · rename_i j hj
      split at h
      · cases h
        refine .set (fun _ _ h => h) (fun b' c' he => ?_) ⟨rfl, rfl, rfl⟩ ?_ fun k hk => ?_
        · cases he
          rw [hj]; rfl
        · simp [sentTo, hj]
        · simp [sentTo, hj, hk.symm]
      · cases h
    · cases h
  | close b =>
    simp only [World.deliver] at h
    split at h
    · rename_i j hj
      cases h
      exact hself j (fun _ _ => rfl) nofun _ ⟨rfl, rfl, rfl⟩ rfl
    · cases h
      exact hquiet (fun _ _ => rfl) nofun
  | listen _ | acceptClient _ | hello _ | sendFailed _ _ =>
    cases h
    exact hquiet (fun _ _ => rfl) nofun

/-- One more act on the trace, delivered. -/
theorem Conserved.cons (hw : Conserved t w) (h : Delivered w a w') : Conserved (a :: t) w' where
  known b c hbc := by
    rcases List.mem_cons.1 hbc with hbc | hbc
    · exact h.known b c hbc.symm
    · obtain ⟨j, hj⟩ := Option.isSome_iff_exists.1 (hw.known b c hbc)
      rw [h.peer b j hj]; rfl
  clients j := by
    -- the connections of the clients already sent keep their workers
    have hold : t.filterMap (sentTo w'.peer j) = t.filterMap (sentTo w.peer j) := by
      refine List.filterMap_congr fun a' ha' => ?_
      cases a' with
      | sent b c =>
        obtain ⟨k, hk⟩ := Option.isSome_iff_exists.1 (hw.known b c ha')
        simp only [sentTo, hk, h.peer b k hk]
      | _ => rfl
    rw [(h.rest j).2.2, h.toWorker j, ← List.append_assoc, ← hw.clients j, List.filterMap_cons,
      ← hold]
    cases sentTo w'.peer j a <;> simp
  state j := by rw [(h.rest j).2.1]; exact hw.state j

/-- The master's acts, delivered one after the other. -/
theorem Conserved.deliverAll (hw : Conserved t w) (h : w.deliverAll i acts = some w') :
    Conserved (acts ++ t) w' ∧ w'.master = w.master ∧
      ∀ j, (w'.worker j).pc = (w.worker j).pc ∧ (w'.worker j).taken = (w.worker j).taken := by
  induction acts generalizing w' with
  | nil =>
    cases h
    exact ⟨hw, rfl, fun _ => ⟨rfl, rfl⟩⟩
  | cons a acts ih =>
    obtain ⟨w₁, h1, h2⟩ := Option.bind_eq_some_iff.1 h
    obtain ⟨hw₁, hm₁, hp₁⟩ := ih h1
    have hd := deliver_delivered h2
    refine ⟨hw₁.cons hd, hd.master.trans hm₁, fun j => ?_⟩
    exact ⟨(hd.rest j).1.trans (hp₁ j).1, (hd.rest j).2.2.trans (hp₁ j).2⟩

/-! ## The workers' moves -/

/-- The worker takes no more clients. -/
def Pc.Retired : Pc → Prop
  | .timedOut | .left | .closed => True
  | .off | .handling _ => False

/-- What a worker's own moves keep. -/
structure Kept (p p' : Worker) : Prop where
  clients : p'.taken ++ p'.toWorker = p.taken ++ p.toWorker
  state : p.state = waitRead → p'.state = waitRead

theorem Kept.trans {p p' p'' : Worker} (h : Kept p p') (h' : Kept p' p'') : Kept p p'' :=
  ⟨h'.clients.trans h.clients, fun hs => h'.state (h.state hs)⟩

variable {p : Worker} {env : WorkerEnv} {e : Events} {evs : List Events}

theorem onWriteable_kept : Kept p (p.onWriteable i env) := by
  unfold Worker.onWriteable
  split
  · exact ⟨rfl, id⟩
  · dsimp only
    split
    · exact ⟨rfl, fun _ => rfl⟩
    · exact ⟨rfl, id⟩

/-- `recvmsg` takes the first client on its way. -/
theorem onReadable_kept : Kept p (p.onReadable env) := by
  have htake : (p.taken ++ p.toWorker.head?.toList) ++ p.toWorker.tail = p.taken ++ p.toWorker := by
    cases p.toWorker <;> simp
  unfold Worker.onReadable
  split
  · exact ⟨rfl, id⟩
  · dsimp only
    split
    · exact ⟨htake, fun _ => rfl⟩
    · exact ⟨htake, fun _ => rfl⟩

theorem onEvent_kept : Kept p (p.onEvent i env e) := by
  unfold Worker.onEvent
  split
  · exact ⟨rfl, id⟩
  split
  · exact ⟨rfl, id⟩
  dsimp only
  have hread : ∀ p₁, Kept p p₁ →
      Kept p (if p₁.state = waitRead ∧ e.readable then p₁.onReadable env else p₁) := by
    intro p₁ h
    split
    · exact h.trans onReadable_kept
    · exact h
  refine hread _ ?_
  split
  · exact onWriteable_kept
  · exact ⟨rfl, id⟩

/-! ## Whole runs -/

/-- The invariant of the system. -/
structure Sound (w : World) : Prop where
  table : Table w.master
  conserved : Conserved w.master.trace w

theorem Conserved.setWorker (hw : Conserved t w) {p : Worker} (hp : Kept (w.worker i) p) :
    Conserved t (w.setWorker i p) where
  known := hw.known
  clients j := by
    rw [setWorker_peer]
    by_cases hj : j = i
    · subst hj
      rw [setWorker_self, hp.clients]; exact hw.clients j
    · rw [setWorker_of_ne _ _ hj]; exact hw.clients j
  state j := by
    by_cases hj : j = i
    · subst hj
      rw [setWorker_self]; exact hp.state (hw.state j)
    · rw [setWorker_of_ne _ _ hj]; exact hw.state j

theorem newActs_eq (h : m.trace <:+ m'.trace) : newActs m m' ++ m.trace = m'.trace := by
  obtain ⟨l, hl⟩ := h
  simp [newActs, ← hl]

theorem Step.trace {l : Label} (hs : Rustica.Step m l m') (ht : Table m) : m.trace <:+ m'.trace := by
  cases hs with
  | @handle env ev evs hb hh hf =>
    have ht' := ht.tail hb
    have hk := ht.head hb
    have hp : Prims _ _ := handleEvent_prims ht' hk ⟨hf.ipc, hf.client⟩ hh
    exact hp.trace
  | wait _ _ _ | sigusr1 | sigterm => exact List.suffix_rfl

/-- What a step of the system leaves of a worker that has retired. -/
def StillRetired (w w' : World) : Prop :=
  ∀ j, (w.worker j).pc.Retired → (w'.worker j).pc.Retired ∧ (w'.worker j).taken = (w.worker j).taken

/-- A move of a worker that was at work, or goes on retiring. -/
theorem stillRetired_setWorker (h : (w.worker i).pc.Retired →
    p.pc.Retired ∧ p.taken = (w.worker i).taken) : StillRetired w (w.setWorker i p) := by
  intro j hj
  by_cases hji : j = i
  · subst hji
    rw [setWorker_self]; exact h hj
  · rw [setWorker_of_ne _ _ hji]; exact ⟨hj, rfl⟩

/-- **Every step conserves the clients.** -/
theorem World.Step.sound {mv : Move} (hs : World.Step idleTimeout w mv w') (hw : Sound w) :
    Sound w' ∧ StillRetired w w' := by
  obtain ⟨ht, hc⟩ := hw
  cases mv with
  | start i =>
    simp only [World.Step, World.move] at hs
    split at hs
    · rename_i hpc
      cases hs
      exact ⟨⟨ht, hc.setWorker ⟨rfl, id⟩⟩, stillRetired_setWorker fun h => by
        rw [hpc] at h; exact h.elim⟩
    · cases hs
  | wait i evs =>
    simp only [World.Step, World.move] at hs
    split at hs
    · rename_i hg
      cases hs
      exact ⟨⟨ht, hc.setWorker ⟨rfl, id⟩⟩, stillRetired_setWorker fun h => by
        rw [hg.1] at h; exact h.elim⟩
    · cases hs
  | event i env =>
    simp only [World.Step, World.move] at hs
    split at hs
    · rename_i e evs hpc
      cases hs
      have hk : Kept (w.worker i) { w.worker i with pc := .handling evs } := ⟨rfl, id⟩
      exact ⟨⟨ht, hc.setWorker (hk.trans onEvent_kept)⟩, stillRetired_setWorker fun h => by
        rw [hpc] at h; exact h.elim⟩
    · cases hs
  | leave i | teardown i =>
    simp only [World.Step, World.move] at hs
    split at hs
    · cases hs
      exact ⟨⟨ht, hc.setWorker ⟨rfl, id⟩⟩, stillRetired_setWorker fun _ => ⟨trivial, rfl⟩⟩
    · cases hs
  | master i l =>
    obtain ⟨m', h1, h2⟩ := Option.bind_eq_some_iff.1 hs
    have hstep := step_of_next h1
    have hc' : Conserved w.master.trace { w with master := m' } := ⟨hc.known, hc.clients, hc.state⟩
    obtain ⟨h3, h4, h5⟩ := hc'.deliverAll h2
    rw [newActs_eq (hstep.trace ht)] at h3
    have hm : w'.master = m' := h4
    refine ⟨⟨hm ▸ hstep.table ht, hm ▸ h3⟩, fun j hj => ?_⟩
    rw [(h5 j).1, (h5 j).2]
    exact ⟨hj, rfl⟩

theorem init_sound (cfg : Setup) : Sound (.init cfg) := by
  refine ⟨startup_table cfg, ?_, fun j => ?_, fun _ => rfl⟩
  · intro b c h
    obtain ⟨fd, hfd⟩ := (startup_started cfg).trace _ h
    cases hfd
  · have hnone : (startup cfg).trace.filterMap (sentTo (World.init cfg).peer j) = [] := by
      refine List.filterMap_eq_nil_iff.2 fun a ha => ?_
      obtain ⟨fd, rfl⟩ := (startup_started cfg).trace a ha
      rfl
    change ((startup cfg).trace.filterMap (sentTo (World.init cfg).peer j)).reverse = _
    rw [hnone]; rfl

theorem reach_sound {cfg : Setup} (hr : Reach (World.Step idleTimeout) (.init cfg) w) : Sound w :=
  hr.inv (init_sound cfg) fun _ _ _ hw hs => (hs.sound hw).1

/-- Once it has retired, a worker takes nothing. -/
theorem retired_of_reach (hw : Sound w) (hr : Reach (World.Step idleTimeout) w w')
    (hi : (w.worker i).pc.Retired) : (w'.worker i).taken = (w.worker i).taken := by
  have hinv := hr.inv (I := fun w' => Sound w' ∧ (w'.worker i).pc.Retired ∧
    (w'.worker i).taken = (w.worker i).taken) ⟨hw, hi, rfl⟩ ?_
  · exact hinv.2.2
  · rintro w₁ mv w₂ ⟨hw₁, hret, htaken⟩ hs
    obtain ⟨hw₂, hstill⟩ := hs.sound hw₁
    obtain ⟨hret₂, htaken₂⟩ := hstill i hret
    exact ⟨hw₂, hret₂, htaken₂.trans htaken⟩

/-- **Only clients dispatched after the timeout are lost.**  In every state the clients sent to a
    worker are those it has taken, in this order, and those on their way.  When its wait for a client
    returns no event, it has taken all of them; so at the exit that follows just those are on their
    way that were sent after the wait returned. -/
theorem idle_exit_loses_late_clients {cfg : Setup} {w₁ w₂ w₃ : World}
    (hr : Reach (World.Step idleTimeout) (.init cfg) w₁)
    (hwait : World.Step idleTimeout w₁ (.wait i []) w₂)
    (hreg : (w₁.worker i).interest.readable = true)
    (hr' : Reach (World.Step idleTimeout) w₂ w₃) :
    (∀ b c, .sent b c ∈ w₃.master.trace → ∃ j, c ∈ w₃.dispatched j) ∧
      (∀ j, w₃.dispatched j = (w₃.worker j).taken ++ (w₃.worker j).toWorker) ∧
      (w₁.worker i).taken = w₁.dispatched i ∧
      (w₃.worker i).taken = w₁.dispatched i ∧
      w₃.dispatched i = w₁.dispatched i ++ (w₃.worker i).toWorker := by
  have hw₁ := reach_sound hr
  have hw₃ := reach_sound (hr.snoc hwait |>.trans hr')
  have hw₂ := (hwait.sound hw₁).1
  have hall₁ : w₁.dispatched i = (w₁.worker i).taken ++ (w₁.worker i).toWorker :=
    hw₁.conserved.clients i
  have hall₃ : w₃.dispatched i = (w₃.worker i).taken ++ (w₃.worker i).toWorker :=
    hw₃.conserved.clients i
  simp only [World.Step, World.move] at hwait
  split at hwait
  swap
  · cases hwait
  rename_i hg
  cases hwait
  -- nothing was on its way, or the wait had returned an event
  have hempty : (w₁.worker i).toWorker = [] := by
    have hread := (hg.2.2.2.2 rfl).2.1 hreg
    simp only [Worker.readable, Bool.or_eq_false_iff, Bool.not_eq_false'] at hread
    exact List.isEmpty_iff.1 hread.1
  rw [hempty, List.append_nil] at hall₁
  have hret : (((w₁.setWorker i ((w₁.worker i).wake [])).worker i).pc).Retired := by
    simp [Worker.wake, hw₁.conserved.state i, Pc.Retired]
  have htaken := retired_of_reach hw₂ hr' hret
  rw [setWorker_self] at htaken
  have htaken : (w₃.worker i).taken = w₁.dispatched i := htaken.trans hall₁.symm
  refine ⟨fun b c hbc => ?_, hw₃.conserved.clients, hall₁.symm, htaken, ?_⟩
  · obtain ⟨j, hj⟩ := Option.isSome_iff_exists.1 (hw₃.conserved.known b c hbc)
    refine ⟨j, List.mem_reverse.2 (List.mem_filterMap.2 ⟨_, hbc, ?_⟩)⟩
    simp [sentTo, hj]
  · rw [hall₃, htaken]

/-- Worker 0 connects on descriptor 20 and says hello; it waits for a client. -/
def idleWorkerRun : List Move :=
  [.start 0, .master 0 (.wait [readable 1]), .master 0 (.handle { acceptIpc := 20 }),
    .wait 0 [wlSocketWriteable], .event 0 { send := some 12 },
    .master 0 (.wait [readable 3]), .master 0 (.handle { recv := some (hello 0) })]

/-- The wait times out; then client 10 arrives and is sent to the worker. -/
def lateClientRun : List Move :=
  [.wait 0 [], .master 0 (.wait [readable 2]),
    .master 0 (.handle { acceptClient := 10, sendmsg := fun _ => true })]

/-- The worker leaves `main_loop` with the client on its way. -/
theorem late_client_lost : ∃ w w', Reach (World.Step 60) (.init smallSetup) w ∧
    w.Step 60 (.leave 0) w' ∧ (w.worker 0).interest.readable = true ∧
    .sent 20 10 ∈ w.master.trace ∧ (w.worker 0).taken = [] ∧ (w.worker 0).toWorker = [10] := by
  have hexec : (execs (World.move 60) (.init smallSetup) (idleWorkerRun ++ lateClientRun)).any
      (fun w => (w.worker 0).pc = .timedOut ∧ (w.worker 0).interest.readable = true ∧
        .sent 20 10 ∈ w.master.trace ∧ (w.worker 0).taken = [] ∧
        (w.worker 0).toWorker = [10]) = true := by decide
  obtain ⟨w, hr, hp⟩ := exists_reach_of_execs (fun _ _ _ h => h) hexec
  obtain ⟨h1, h2, h3, h4, h5⟩ := of_decide_eq_true hp
  exact ⟨w, _, hr, if_pos h1, h2, h3, h4, h5⟩

/-- It has lost that client and no other. -/
theorem late_client_only : ∃ w₁ w₃, Reach (World.Step 60) (.init smallSetup) w₁ ∧
    Reach (World.Step 60) w₁ w₃ ∧ (w₁.worker 0).taken = w₁.dispatched 0 ∧
    (w₃.worker 0).toWorker = [10] ∧ w₃.dispatched 0 = w₁.dispatched 0 ++ [10] := by
  have hexec : (execs (World.move 60) (.init smallSetup) idleWorkerRun).any (fun w =>
      (w.worker 0).interest.readable = true ∧ (execs (World.move 60) w lateClientRun).any
        (fun w => (w.worker 0).toWorker = [10]) = true) = true := by decide
  obtain ⟨w₁, hr, hp⟩ := exists_reach_of_execs (fun _ _ _ h => h) hexec
  obtain ⟨hreg, hp⟩ := of_decide_eq_true hp
  obtain ⟨w₂, hwait, hlate⟩ : ∃ w₂, World.Step 60 w₁ (.wait 0 []) w₂ ∧
      (execs (World.move 60) w₂ lateClientRun.tail).any
        (fun w => (w.worker 0).toWorker = [10]) = true := by
    cases hw : w₁.move 60 (.wait 0 []) with
    | none => simp [lateClientRun, execs, hw] at hp
    | some w₂ => exact ⟨w₂, hw, by simpa [lateClientRun, execs, hw] using hp⟩
  obtain ⟨w₃, hr', h10⟩ := exists_reach_of_execs (fun _ _ _ h => h) hlate
  have h10 : (w₃.worker 0).toWorker = [10] := of_decide_eq_true h10
  obtain ⟨-, -, h1, -, h2⟩ := idle_exit_loses_late_clients hr hwait hreg hr'
  rw [h10] at h2
  exact ⟨w₁, w₃, hr, (Reach.refl.snoc hwait).trans hr', h1, h10, h2⟩

end Rustica
