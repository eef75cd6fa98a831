/-
  The socket table.

  `Prim` lists the updates that the master's handlers are made of, each with what the source
  guarantees where it makes the update.  Every handler is a sequence of such updates (`Prims`), so
  an invariant that each of them keeps holds in every reachable state.

  `Table` is the invariant of the slots: a slot is registered in the wait set if and only if it is
  in use, under its own index, and the idle ring and the batch name slots inside the array.
-/
import Rustica.Master
import Rustica.Lib.Exec

namespace Rustica

open Exec

def Master.used (m : Master) (k : ℤ) : Prop := m.rmWaitSet.waitSet.polled k
def Master.interest (m : Master) (k : ℤ) : Events := (m.rmWaitSet.waitSet.events k).events
def Master.inRange (m : Master) (k : ℤ) : Prop := 0 ≤ k ∧ k < m.totalSockets

/-- Slot `k` holds a backend connection. -/
structure Live (m : Master) (k : ℤ) : Prop where
  range : m.inRange k
  type : (m.sockets k).type = .backend

/-- The client descriptors accepted so far, and the backend connections. -/
def Master.clients (m : Master) : List Pgsocket :=
  m.trace.filterMap fun a => match a with | .acceptClient c => some c | _ => none
def Master.backends (m : Master) : List Pgsocket :=
  m.trace.filterMap fun a => match a with | .acceptBackend b => some b | _ => none

/-- What is noted about the connection `b`. -/
inductive About (b : Pgsocket) : Act → Prop
  | received (bytes) : About b (.received b bytes)
  | hello : About b (.hello b)
  | sent (c) : About b (.sent b c)
  | sendFailed (c) : About b (.sendFailed b c)

/-- The events a frontend listener is registered for. -/
def frontendEvents (paused : Bool) : Events := if paused then wlSocketClosed else wlSocketAccept

/-- The updates the handlers are made of. -/
inductive Prim (m : Master) : Master → Prop
  | opened {b} : b ∉ m.opened → m.rmWaitSet.used ≠ m.rmWaitSet.waitSet.neventsSpace →
      Prim m ((m.emit (.acceptBackend b)).openSocket .backend b backendEvents)
  | overflow {b} : b ∉ m.opened → m.rmWaitSet.used = m.rmWaitSet.waitSet.neventsSpace →
      Prim m (((m.emit (.acceptBackend b)).openSocket .backend b backendEvents).emit (.close b))
  | accepted {c} : c ∉ m.opened → Prim m (m.emit (.acceptClient c))
  | noted {k a} : Live m k → About (m.sockets k).fd a → Prim m (m.emit a)
  | dropped {c} : c ∈ m.clients → Prim m (m.emit (.close c))
  | closed {k} : Live m k → Prim m (m.closeSocket k)
  | scratch {k} (ro : ℕ) (w : ℕ → UInt8) :
      Prim m (m.setSocket k { m.sockets k with readOffset := ro, workerId := w })
  | interest {k ev} : ev.latchSet = false → Live m k → Prim m (m.modify k ev)
  | frontends (p : Bool) :
      Prim m ({ m with frontendPaused := p }.modifyFrontends (frontendEvents p))
  | popIdle : 0 < m.idle.size → Prim m m.popIdle
  | pushIdle {k} : Live m k →
      Prim m { m with idle := m.idle.push m.totalSockets (m.sockets k).pos }
  | pushJob {c} : c ∈ m.clients → m.jobs.size < jobQlen →
      Prim m { m with jobs := m.jobs.push jobQlen c }
  | popJob : 0 < m.jobs.size → Prim m { m with jobs := m.jobs.pop jobQlen }
  | spawn (env : Env) : Prim m (spawnWorker m env)
  | reap (env : Env) : Prim m (onWorkerDied { m with workerDied := false } env)
  | halt : Prim m { m with halted := true }

/-- A sequence of updates. -/
abbrev Prims : Master → Master → Prop := Relation.ReflTransGen Prim

/-- The invariant of the socket table. -/
structure Table (m : Master) : Prop where
  set : m.rmWaitSet.Wf
  space : m.rmWaitSet.waitSet.neventsSpace = m.totalSockets
  /-- slot 0 is the latch's -/
  zero : (m.sockets 0).type = .unset ∧ m.used 0
  live : ∀ k, k ≠ 0 → m.inRange k → ((m.sockets k).type ≠ .unset ↔ m.used k)
  pos : ∀ k, m.used k → (m.sockets k).pos = k
  userData : ∀ k, m.used k → (m.rmWaitSet.waitSet.events k).userData = k
  idle : ∀ i, m.inRange (m.idle.buf i)
  ring : m.idle.Wf m.totalSockets
  batch : ∀ ev ∈ m.batch, m.inRange ev.userData

variable {m m' : Master} {k : ℤ} {env : Env} {ev : WaitEvent} {b c : Pgsocket}

@[simp] theorem modify_sockets {events} : (m.modify k events).sockets = m.sockets := rfl

/-- A registration touches the fields of the workers only. -/
theorem spawnWorker_rest (m : Master) (env : Env) : ∃ seq n hs,
    spawnWorker m env = { m with workerIdSeq := seq, numWorkers := n, workerHandles := hs } := by
  unfold spawnWorker
  split
  · dsimp only
    split
    · exact ⟨_, _, _, rfl⟩
    · exact ⟨_, m.numWorkers, m.workerHandles, rfl⟩
  · exact ⟨m.workerIdSeq, m.numWorkers, m.workerHandles, rfl⟩

theorem foldl_modify_rest (l : List ℕ) (events : Events) (m : Master) :
    ∃ s, l.foldl (fun m (i : ℕ) =>
      if (m.sockets i).type = .frontend then m.modify i events else m) m =
        { m with rmWaitSet := s } := by
  induction l generalizing m with
  | nil => exact ⟨m.rmWaitSet, rfl⟩
  | cons i l ih =>
    rw [List.foldl_cons]
    split
    · obtain ⟨s, hs⟩ := ih (m.modify i events)
      exact ⟨s, hs⟩
    · exact ih m

/-- Pausing and resuming change the wait set only. -/
theorem modifyFrontends_rest (m : Master) (events : Events) :
    ∃ s, m.modifyFrontends events = { m with rmWaitSet := s } := foldl_modify_rest _ _ _

/-- Different slots are no more than there are. -/
theorem length_le_totalSockets {l : List ℤ} (hn : l.Nodup) (hl : ∀ k ∈ l, m.inRange k) :
    l.length ≤ m.totalSockets := by
  have hsub : l.toFinset ⊆ Finset.Ico (0 : ℤ) m.totalSockets :=
    fun k hk => Finset.mem_Ico.2 (hl k (List.mem_toFinset.1 hk))
  have hcard := Finset.card_le_card hsub
  rw [List.toFinset_card_of_nodup hn, Int.card_Ico] at hcard
  omega

namespace Table

theorem used_range (hm : Table m) (hk : m.used k) : m.inRange k := by
  have := ((hm.set.polled_iff k).1 hk).1
  rwa [hm.space] at this

theorem live_used (hm : Table m) (hk : Live m k) : m.used k := by
  have h0 : k ≠ 0 := by
    rintro rfl
    have := hk.type
    rw [hm.zero.1] at this
    cases this
  exact (hm.live k h0 hk.range).1 (by rw [hk.type]; decide)

theorem live_pos (hm : Table m) (hk : Live m k) : (m.sockets k).pos = k := hm.pos k (hm.live_used hk)

theorem live_ne_zero (hm : Table m) (hk : Live m k) : k ≠ 0 := by
  rintro rfl
  have := hk.type
  rw [hm.zero.1] at this
  cases this

/-- Where the next connection goes. -/
theorem next (hm : Table m) (h : m.rmWaitSet.used ≠ m.rmWaitSet.waitSet.neventsSpace) :
    m.inRange (nextWaitEventPos m.rmWaitSet) ∧ ¬ m.used (nextWaitEventPos m.rmWaitSet) := by
  obtain ⟨h0, h1, h2⟩ := hm.set.next h
  exact ⟨⟨h0, by rwa [hm.space] at h1⟩, h2⟩

/-- The slot that the next connection gets, if it gets one, holds none. -/
theorem next_unset (hm : Table m) (hr : m.inRange (nextWaitEventPos m.rmWaitSet)) :
    nextWaitEventPos m.rmWaitSet ≠ 0 ∧
      (m.sockets (nextWaitEventPos m.rmWaitSet)).type = .unset := by
  have hroom : m.rmWaitSet.used ≠ m.rmWaitSet.waitSet.neventsSpace := by
    intro hfull
    have := hr.1
    rw [next_of_full hfull] at this
    omega
  have hnot := (hm.next hroom).2
  have h0 : nextWaitEventPos m.rmWaitSet ≠ 0 := by
    intro h0
    rw [h0] at hnot
    exact hnot hm.zero.2
  refine ⟨h0, ?_⟩
  by_contra hty
  exact hnot ((hm.live _ h0 hr).1 hty)

/-- A change of interest keeps the table. -/
theorem modify (hm : Table m) (p : ℤ) (events : Events) :
    Table { m with rmWaitSet := modifyWaitEventEx m.rmWaitSet p events } where
  set := hm.set.modify
  space := hm.space
  zero := hm.zero
  live := hm.live
  pos := hm.pos
  userData k hk := by
    have hk := hm.userData k hk
    change ((modifyWaitEventEx m.rmWaitSet p events).waitSet.events k).userData = k
    rw [modify_events]
    split
    · subst k; exact hk
    · exact hk
  idle := hm.idle
  ring := hm.ring
  batch := hm.batch

theorem foldl_modify (hm : Table m) (l : List ℕ) (events : Events) :
    Table (l.foldl (fun m (i : ℕ) =>
      if (m.sockets i).type = .frontend then m.modify i events else m) m) := by
  induction l generalizing m with
  | nil => exact hm
  | cons i l ih =>
    rw [List.foldl_cons]
    split
    · exact ih (hm.modify _ _)
    · exact ih hm

/-- Opening a slot that is not in use. -/
theorem openSocket (hm : Table m) (h : m.rmWaitSet.used ≠ m.rmWaitSet.waitSet.neventsSpace)
    {type : SockType} {fd : Pgsocket} {events : Events} (h0 : m.used 0)
    (ht : type ≠ .unset) : Table (m.openSocket type fd events) := by
  obtain ⟨hr, hn⟩ := hm.next h
  have hk0 : nextWaitEventPos m.rmWaitSet ≠ 0 := fun h => hn (h ▸ h0)
  refine ⟨hm.set.add h, ?_, ⟨?_, ?_⟩, ?_, ?_, ?_, hm.idle, hm.ring, hm.batch⟩
  · exact add_space.trans hm.space
  · simp only [Master.openSocket, Master.setSocket, Function.update_of_ne hk0.symm]
    exact hm.zero.1
  · simp only [Master.used, Master.openSocket, Master.setSocket]
    rw [add_polled h, Function.update_of_ne hk0.symm]; exact h0
  · intro k hk hkr
    simp only [Master.used, Master.openSocket, Master.setSocket]
    rw [add_polled h]
    by_cases hkn : k = nextWaitEventPos m.rmWaitSet
    · subst hkn; simpa using ht
    · rw [Function.update_of_ne hkn, Function.update_of_ne hkn]
      exact hm.live k hk hkr
  · intro k hk
    simp only [Master.used, Master.openSocket, Master.setSocket] at hk ⊢
    rw [add_polled h] at hk
    by_cases hkn : k = nextWaitEventPos m.rmWaitSet
    · subst hkn; simpa using add_fst h
    · rw [Function.update_of_ne hkn] at hk ⊢
      exact hm.pos k hk
  · intro k hk
    simp only [Master.used, Master.openSocket, Master.setSocket] at hk ⊢
    rw [add_polled h] at hk
    rw [add_events h]
    by_cases hkn : k = nextWaitEventPos m.rmWaitSet
    · subst hkn; simp
    · rw [Function.update_of_ne hkn] at hk ⊢
      exact hm.userData k hk

/-- Closing a slot in use, other than the latch's. -/
theorem closeSocket (hm : Table m) (hk : Live m k) : Table (m.closeSocket k) := by
  have hu := hm.live_used hk
  have hp := hm.pos k hu
  have hk0 := hm.live_ne_zero hk
  have hpolled : (m.closeSocket k).rmWaitSet.waitSet.polled =
      Function.update m.rmWaitSet.waitSet.polled k false := by
    simp only [Master.closeSocket, Master.setSocket, Master.emit, hp, delete_polled]
  refine ⟨?_, hm.space, ⟨?_, ?_⟩, ?_, ?_, ?_, hm.idle, hm.ring, hm.batch⟩
  · change (deleteWaitEventEx m.rmWaitSet (m.sockets k).pos).Wf
    rw [hp]; exact (hm.set.delete hu).2
  · simp only [Master.closeSocket, Master.setSocket, Function.update_of_ne hk0.symm]
    exact hm.zero.1
  · simp only [Master.used]
    rw [hpolled, Function.update_of_ne hk0.symm]; exact hm.zero.2
  · intro j hj hjr
    simp only [Master.used]
    rw [hpolled]
    simp only [Master.closeSocket, Master.setSocket]
    by_cases hjk : j = k
    · subst hjk; simp
    · rw [Function.update_of_ne hjk, Function.update_of_ne hjk]
      exact hm.live j hj hjr
  · intro j hj
    simp only [Master.used] at hj
    rw [hpolled] at hj
    by_cases hjk : j = k
    · subst hjk; simp at hj
    · simp only [Master.closeSocket, Master.setSocket]
      rw [Function.update_of_ne hjk] at hj ⊢
      exact hm.pos j hj
  · intro j hj
    simp only [Master.used] at hj
    rw [hpolled] at hj
    by_cases hjk : j = k
    · subst hjk; simp at hj
    · rw [Function.update_of_ne hjk] at hj
      exact hm.userData j hj

end Table

/-- Filling in the cell before the array. -/
theorem Table.overflow (hm : Table m) (h : m.rmWaitSet.used = m.rmWaitSet.waitSet.neventsSpace)
    {type : SockType} {fd : Pgsocket} {events : Events} : Table (m.openSocket type fd events) := by
  have hsock : ∀ {j}, 0 ≤ j → (m.openSocket type fd events).sockets j = m.sockets j := by
    intro j hj
    simp only [Master.openSocket, Master.setSocket,
      next_of_full h]
    exact Function.update_of_ne (by omega) _ _
  have hset : (m.openSocket type fd events).rmWaitSet = m.rmWaitSet :=
    congrArg Prod.snd (add_of_full h)
  refine ⟨hset ▸ hm.set, hset ▸ hm.space, ⟨?_, ?_⟩, ?_, ?_, ?_, hm.idle, hm.ring, hm.batch⟩
  · rw [hsock le_rfl]; exact hm.zero.1
  · simp only [Master.used, hset]; exact hm.zero.2
  · intro j hj hjr
    simp only [Master.used, hset, hsock hjr.1]; exact hm.live j hj hjr
  · intro j hj
    simp only [Master.used, hset] at hj
    rw [hsock (hm.used_range hj).1]; exact hm.pos j hj
  · simp only [Master.used, hset]; exact hm.userData

/-- Storing in a slot, its type and position apart. -/
theorem Table.setSocket (hm : Table m) {s : Socket} (ht : s.type = (m.sockets k).type)
    (hp : s.pos = (m.sockets k).pos) : Table (m.setSocket k s) := by
  have htype : ∀ j, ((m.setSocket k s).sockets j).type = (m.sockets j).type := by
    intro j
    by_cases hj : j = k
    · subst hj; simpa [Master.setSocket] using ht
    · simp [Master.setSocket, hj]
  have hpos : ∀ j, ((m.setSocket k s).sockets j).pos = (m.sockets j).pos := by
    intro j
    by_cases hj : j = k
    · subst hj; simpa [Master.setSocket] using hp
    · simp [Master.setSocket, hj]
  refine ⟨hm.set, hm.space, ⟨(htype 0).trans hm.zero.1, hm.zero.2⟩, ?_, ?_, hm.userData, hm.idle,
    hm.ring, hm.batch⟩
  · intro j hj hjr; rw [htype]; exact hm.live j hj hjr
  · intro j hj; rw [hpos]; exact hm.pos j hj

/-- **Every update keeps the table.** -/
theorem Prim.table (h : Prim m m') (hm : Table m) : Table m' := by
  cases h with
  | opened _ hsp => exact Table.openSocket (m := m.emit _) { hm with } hsp hm.zero.2 (by decide)
  | overflow _ hsp => exact { Table.overflow (m := m.emit _) { hm with } hsp with }
  | closed hk => exact hm.closeSocket hk
  | scratch ro w => exact hm.setSocket rfl rfl
  | interest _ _ => exact hm.modify _ _
  | frontends p => exact Table.foldl_modify (m := { m with frontendPaused := p }) { hm with } _ _
  | pushIdle hk =>
    refine { hm with idle := fun i => ?_, ring := hm.ring.push _ }
    simp only [RingBuf.push, Function.update_apply]
    split
    · rw [hm.live_pos hk]; exact hk.range
    · exact hm.idle i
  | popIdle hpos => exact { hm with ring := hm.ring.pop hpos }
  | spawn env =>
    obtain ⟨seq, n, hs, he⟩ := spawnWorker_rest m env
    rw [he]; exact { hm with }
  | accepted _ | noted _ _ | dropped _ | pushJob _ _ | popJob _ | reap _ | halt => exact { hm with }

theorem Prims.table (h : Prims m m') (hm : Table m) : Table m' := by
  induction h with
  | refl => exact hm
  | tail _ h ih => exact h.table ih

/-! ## Interest -/

theorem modify_interest {events : Events} (hm : Table m) (hk : m.used k) (j : ℤ) :
    (m.modify k events).interest j = if j = k then events else m.interest j := by
  simp only [Master.interest, Master.modify, hm.pos k hk, modify_events]
  split <;> rfl

theorem foldl_modify_interest {events : Events} (l : List ℕ) (hm : Table m)
    (hl : ∀ i ∈ l, m.inRange (i : ℤ)) (k : ℤ) :
    (l.foldl (fun m (i : ℕ) =>
      if (m.sockets i).type = .frontend then m.modify i events else m) m).interest k =
        if (m.sockets k).type = .frontend ∧ ∃ i ∈ l, (i : ℤ) = k then events
        else m.interest k := by
  induction l generalizing m with
  | nil => simp
  | cons i l ih =>
    rw [List.foldl_cons]
    have hl' := fun j hj => hl j (List.mem_cons_of_mem _ hj)
    by_cases ht : (m.sockets i).type = .frontend
    · have h0 : (i : ℤ) ≠ 0 := by
        intro h0
        rw [h0, hm.zero.1] at ht; cases ht
      have hu := (hm.live i h0 (hl i List.mem_cons_self)).1 (by rw [ht]; decide)
      have ih := ih (m := m.modify i events) (hm.modify _ _) hl'
      rw [if_pos ht, ih, modify_interest hm hu, modify_sockets]
      by_cases hik : k = i
      · subst hik; simp [ht]
      · simp [hik, Ne.symm hik]
    · rw [if_neg ht, ih hm hl']
      by_cases hik : (i : ℤ) = k
      · subst hik; simp [ht]
      · simp [hik]

/-- The loops over the frontend listeners reach all of these and nothing else. -/
theorem modifyFrontends_interest {events : Events} (hm : Table m) (hk : m.inRange k) :
    (m.modifyFrontends events).interest k =
      if (m.sockets k).type = .frontend then events else m.interest k := by
  have hl : ∀ i ∈ List.range m.totalSockets, m.inRange (i : ℤ) := by
    intro i hi
    exact ⟨by omega, by exact_mod_cast List.mem_range.1 hi⟩
  rw [Master.modifyFrontends, foldl_modify_interest _ hm hl]
  have hmem : ∃ i ∈ List.range m.totalSockets, (i : ℤ) = k := by
    obtain ⟨h0, h1⟩ := hk
    exact ⟨k.toNat, List.mem_range.2 (by omega), by omega⟩
  simp only [hmem, and_true]

end Rustica
