/-
  What a connection inherits from the ones that had its slot before.

  `on_backend_connect` fills in a slot and relies on `close_socket` to have cleared the rest of it.
  After a failed `recv`, though, `on_backend` closes the slot and goes on, and the offset that it then
  stores stays there.  Apart from that, a connection is dealt with by its own bytes, events and hellos
  as long as its slot is not reused while the batch or the idle ring still names it
  (`slots_recycled_iff`).
-/
import Rustica.Codec
import Rustica.Idle

namespace Rustica

open Exec

/-! ## What a connection has sent -/

/-- What was received on the connection `b`, as `recv` returned it. -/
def piecesOf (b : Pgsocket) : List Act → List (List UInt8)
  | [] => []
  | .received b' bytes :: l => if b' = b then piecesOf b l ++ [bytes] else piecesOf b l
  | _ :: l => piecesOf b l

def Master.pieces (m : Master) (b : Pgsocket) : List (List UInt8) := piecesOf b m.trace

/-- The fields that a slot reads into. -/
structure Reading where
  readOffset : ℕ
  workerId : ℕ → UInt8

/-- The fields after one more piece. -/
def Reading.next (r : Reading) (buf : List UInt8) : Reading :=
  ⟨(r.readOffset + buf.length) % helloLen,
    copyBytes r.workerId (r.readOffset - 8) (buf.drop (8 - r.readOffset))⟩

/-- The fields of a slot that began at zero. -/
def readingOf (pieces : List (List UInt8)) : Reading := pieces.foldl Reading.next ⟨0, fun _ => 0⟩

/-- **Clean slots**: a free slot is zero (slot 0 is the latch's), a connection's offset is one within
    a hello, and its slot has read what the connection itself has sent. -/
structure SlotsClean (m : Master) : Prop where
  free : ∀ k, k ≠ 0 → m.inRange k → (m.sockets k).type = .unset → m.sockets k = {}
  offset : ∀ k, Live m k → (m.sockets k).readOffset < helloLen
  own : ∀ k, Live m k → (⟨(m.sockets k).readOffset, (m.sockets k).workerId⟩ : Reading) =
    readingOf (m.pieces (m.sockets k).fd)

/-- The event makes `on_backend` call `recv`, which fails. -/
structure RecvFails (m : Master) (env : Env) (ev : WaitEvent) : Prop where
  running : ev.events.latchSet = true → m.shutdownRequested = false
  backend : (m.sockets ev.userData).type = .backend
  kept : ev.events.closed = false
  ready : ev.events.readable = true
  reads : (m.sockets ev.userData).readOffset < helloLen
  failed : env.recv = none

/-- In the step no `recv` fails, and no connection is accepted into a slot that the batch or the idle
    ring still names. -/
structure CleanStep (t : Tracked) (l : Label) : Prop where
  recv : ∀ env, l = .handle env → ∀ ev evs, t.master.batch = ev :: evs → ¬ RecvFails t.master env ev
  batch : NoPendingReuse t l
  ring : NoStaleReuse t.master l

/-- **A connection is dealt with as its own**: what its slot has read, which events are handled
    against it, and whether it is sent clients. -/
structure Recycled (t : Tracked) : Prop where
  clean : SlotsClean t.master
  events : EventsOwned t
  hellos : RingOk t.master

variable {m m' : Master} {k : ℤ} {env : Env} {ev : WaitEvent} {b c fd : Pgsocket} {a : Act}
  {events : Events} {buf : List UInt8}

theorem Act.Unread.pieces (h : a.Unread) : (m.emit a).pieces b = m.pieces b := by
  cases a <;> first | exact h.elim | rfl

/-- A connection that was never accepted has sent nothing. -/
theorem Names.pieces (hm : Names m) (hb : b ∉ m.backends) : m.pieces b = [] := by
  refine hm.of_trace hb (piecesOf b) fun a l ha => ?_
  cases a with
  | received b' bytes =>
    have hne : b' ≠ b := by
      rintro rfl
      exact ha (.received bytes)
    rw [piecesOf, if_neg hne]
  | _ => rfl

/-! ## Updates that keep the slots clean -/

/-- Nothing is read, and every slot is as before or cleared. -/
structure Keeps (m m' : Master) : Prop where
  pieces : ∀ b, m'.pieces b = m.pieces b
  slots : ∀ k, m.inRange k → m'.sockets k = m.sockets k ∨ m'.sockets k = {}
  total : m'.totalSockets = m.totalSockets

namespace Keeps

theorem same (hsock : m'.sockets = m.sockets) (htrace : m'.trace = m.trace)
    (htot : m'.totalSockets = m.totalSockets) : Keeps m m' where
  pieces b := by rw [Master.pieces, htrace]; rfl
  slots k _ := .inl (by rw [hsock])
  total := htot

theorem refl (m : Master) : Keeps m m := same rfl rfl rfl

theorem trans {m'' : Master} (h : Keeps m m') (h' : Keeps m' m'') : Keeps m m'' where
  pieces b := (h'.pieces b).trans (h.pieces b)
  slots k hk := by
    have hk' : m'.inRange k := by rw [Master.inRange, h.total]; exact hk
    rcases h'.slots k hk' with h1 | h1
    · rw [h1]; exact h.slots k hk
    · exact .inr h1
  total := h'.total.trans h.total

theorem unread (ha : a.Unread) : Keeps m (m.emit a) where
  pieces _ := ha.pieces
  slots _ _ := .inl rfl
  total := rfl

theorem closeSocket (m : Master) (k : ℤ) : Keeps m (m.closeSocket k) where
  pieces _ := rfl
  slots j _ := by
    by_cases hj : j = k
    · subst hj
      exact .inr (m.closeSocket_self j)
    · exact .inl (m.closeSocket_of_ne hj)
  total := rfl

theorem blind : Blind Keeps := ⟨same, trans, unread, closeSocket⟩

end Keeps

theorem SlotsClean.keeps (h : SlotsClean m) (hk : Keeps m m') : SlotsClean m' := by
  have hlive : ∀ k, Live m' k → Live m k ∧ m'.sockets k = m.sockets k := by
    intro k hl
    have hr : m.inRange k := by
      have := hl.range
      rwa [Master.inRange, hk.total] at this
    rcases hk.slots k hr with hs | hs
    · exact ⟨⟨hr, hs ▸ hl.type⟩, hs⟩
    · have hty := hl.type
      rw [hs] at hty
      cases hty
  refine ⟨fun k h0 hr hty => ?_, fun k hl => ?_, fun k hl => ?_⟩
  · rw [Master.inRange, hk.total] at hr
    rcases hk.slots k hr with hs | hs
    · rw [hs] at hty ⊢
      exact h.free k h0 hr hty
    · exact hs
  · obtain ⟨hl', hs⟩ := hlive k hl
    rw [hs]
    exact h.offset k hl'
  · obtain ⟨hl', hs⟩ := hlive k hl
    rw [hs, hk.pieces]
    exact h.own k hl'

/-- **A piece is received** on slot `k`: the slot is cleared, or its fields go on. -/
theorem SlotsClean.receive (h : SlotsClean m) (hn : Names m) (hk : Live m k) {s : Socket}
    (htot : m'.totalSockets = m.totalSockets) (hsock : m'.sockets = Function.update m.sockets k s)
    (hpieces : ∀ b, m'.pieces b =
      if (m.sockets k).fd = b then m.pieces b ++ [buf] else m.pieces b)
    (hs : s = {} ∨ (s.type = .backend ∧ s.fd = (m.sockets k).fd ∧ s.readOffset < helloLen ∧
      (⟨s.readOffset, s.workerId⟩ : Reading) =
        (⟨(m.sockets k).readOffset, (m.sockets k).workerId⟩ : Reading).next buf)) : SlotsClean m' := by
  have hother : ∀ j, j ≠ k → m'.sockets j = m.sockets j := fun j hj => by
    rw [hsock, Function.update_of_ne hj]
  have hself : m'.sockets k = s := by rw [hsock, Function.update_self]
  have hrange : ∀ j, m'.inRange j → m.inRange j := fun j hj => by
    rwa [Master.inRange, htot] at hj
  refine ⟨fun j h0 hr hty => ?_, fun j hl => ?_, fun j hl => ?_⟩
  · by_cases hj : j = k
    · subst hj
      rw [hself] at hty ⊢
      rcases hs with hs | ⟨hs, -⟩
      · exact hs
      · rw [hs] at hty; cases hty
    · rw [hother j hj] at hty ⊢
      exact h.free j h0 (hrange j hr) hty
  · by_cases hj : j = k
    · subst hj
      rw [hself]
      rcases hs with rfl | ⟨-, -, hro, -⟩
      · exact (by decide : 0 < helloLen)
      · exact hro
    · rw [hother j hj]
      exact h.offset j ⟨hrange j hl.range, by rw [← hother j hj]; exact hl.type⟩
  · by_cases hj : j = k
    · subst hj
      have hty := hl.type
      rw [hself] at hty ⊢
      rcases hs with rfl | ⟨-, hfd, -, hread⟩
      · cases hty
      · rw [hread, hpieces, hfd, if_pos rfl, h.own j hk, readingOf, readingOf, List.foldl_append]
        rfl
    · have hl' : Live m j := ⟨hrange j hl.range, by rw [← hother j hj]; exact hl.type⟩
      have hne : (m.sockets k).fd ≠ (m.sockets j).fd := fun he => hj (hn.distinct hl' hk he.symm)
      rw [hother j hj, hpieces, if_neg hne]
      exact h.own j hl'

/-! ## The handlers -/

/-- **A piece is read** into the fields of its slot. -/
theorem reads_clean (h : SlotsClean m) (hn : Names m) (hk : Live m k)
    (hread : readOf (m.sockets k) env events = some buf) :
    SlotsClean (onBackend m env k events) := by
  obtain ⟨hro, hlen⟩ := readOf_length hread
  rw [onBackend_reads hread]
  cases badAt (m.sockets k).readOffset buf with
  | some j => exact h.receive hn hk rfl rfl (fun _ => rfl) (.inl rfl)
  | none =>
    simp only
    split
    · rename_i h12
      refine SlotsClean.keeps ?_ (Keeps.blind.greeted (onHello_cases _ env k))
      refine h.receive (s := { m.sockets k with
          readOffset := 0, workerId := storedId (m.sockets k) buf })
        hn hk rfl ?_ (fun _ => rfl) (.inr ⟨hk.type, rfl, (by decide : 0 < helloLen), ?_⟩)
      · simp [helloRead, pieceState, Master.setSocket]
      · rw [Reading.next, h12, Nat.mod_self]
        rfl
    · rename_i h12
      have hlt : (m.sockets k).readOffset + buf.length < helloLen := by omega
      refine h.receive (s := { m.sockets k with
          readOffset := (m.sockets k).readOffset + buf.length
          workerId := storedId (m.sockets k) buf })
        hn hk rfl rfl (fun _ => rfl) (.inr ⟨hk.type, rfl, hlt, ?_⟩)
      rw [Reading.next, Nat.mod_eq_of_lt hlt]
      rfl

/-- An event that does not read, and does not fail to, clears at most its slot. -/
theorem onBackend_keeps (hread : readOf (m.sockets k) env events = none)
    (hok : ¬ (events.closed = false ∧ events.readable = true ∧
      (m.sockets k).readOffset < helloLen ∧ env.recv = none)) :
    Keeps m (onBackend m env k events) := by
  unfold onBackend
  split
  · exact .closeSocket m k
  rename_i hcl
  split
  swap
  · exact .refl m
  rename_i hrd
  dsimp only
  split
  · exact .same rfl rfl rfl
  rename_i hro
  simp only [readOf, hcl, hrd, Nat.not_le.1 hro, true_and, if_true, Option.map_eq_none_iff] at hread
  exact absurd ⟨Bool.eq_false_iff.2 hcl, hrd, Nat.not_le.1 hro, hread⟩ hok

/-- A connection is accepted into a slot that is zero. -/
theorem onBackendConnect_clean (h : SlotsClean m) (ht : Table m) (hn : Names m) (hf : Fresh m env) :
    SlotsClean (onBackendConnect m env events) := by
  set b := env.acceptIpc
  set n := nextWaitEventPos m.rmWaitSet with hnext
  set m₁ := (m.emit (.acceptBackend b)).openSocket .backend b backendEvents with hm₁
  have hsock : m₁.sockets = Function.update m.sockets n _ := openSocket_sockets
  have hother : ∀ j, j ≠ n → m₁.sockets j = m.sockets j := fun j hj => by
    rw [hsock, Function.update_of_ne hj]
  have hrange : ∀ j, m₁.inRange j → m.inRange j := fun j hj => hj
  have hopen : SlotsClean m₁ := by
    have hzero : ∀ {j}, Live m₁ j → j = n → (m₁.sockets j).readOffset = 0 ∧
        (m₁.sockets j).workerId = (fun _ => 0) ∧ (m₁.sockets j).fd = b := by
      rintro j hl rfl
      obtain ⟨h0, hunset⟩ := ht.next_unset hl.range
      have hslot := h.free n h0 hl.range hunset
      rw [hsock, Function.update_self]
      have h1 : ((m.emit (.acceptBackend b)).sockets n).readOffset = 0 := by
        show (m.sockets n).readOffset = 0
        rw [hslot]
      have h2 : ((m.emit (.acceptBackend b)).sockets n).workerId = fun _ => 0 := by
        show (m.sockets n).workerId = fun _ => 0
        rw [hslot]
      exact ⟨h1, h2, rfl⟩
    refine ⟨fun j h0 hj hty => ?_, fun j hl => ?_, fun j hl => ?_⟩
    · have hjn : j ≠ n := by
        rintro rfl
        rw [hsock, Function.update_self] at hty
        cases hty
      rw [hother j hjn] at hty ⊢
      exact h.free j h0 hj hty
    · by_cases hjn : j = n
      · rw [(hzero hl hjn).1]; decide
      · rw [hother j hjn]
        exact h.offset j ⟨hl.range, by rw [← hother j hjn]; exact hl.type⟩
    · by_cases hjn : j = n
      · obtain ⟨h1, h2, h3⟩ := hzero hl hjn
        have hnone : m₁.pieces b = [] := hn.pieces fun hb => hf.ipc (backends_sub_opened hb)
        rw [h1, h2, h3, hnone]
        rfl
      · rw [hother j hjn]
        exact h.own j ⟨hl.range, by rw [← hother j hjn]; exact hl.type⟩
  exact onBackendConnect_rule events ht h (fun _ _ _ => hopen)
    fun _ _ _ => hopen.keeps (.unread trivial)

/-! ## Along runs -/

theorem handleEvent_clean (h : SlotsClean m) (ht : Table m) (hn : Names m)
    (hk : m.inRange ev.userData) (hf : Fresh m env) (hh : m.halted = false)
    (hC : ¬ RecvFails m env ev) : SlotsClean (handleEvent m env ev) := by
  refine handleEvent_rule ht hk hf hh (fun _ _ => h.keeps (.same rfl rfl rfl)) ?_
  rintro hrun m₁ - hl ht₁ hf₁
  have hn₁ := Prims.names hl.prims hn
  obtain ⟨-, n, hs, d, rfl⟩ := hl
  have h₁ : SlotsClean { m with numWorkers := n, workerHandles := hs, workerDied := d } :=
    h.keeps (.same rfl rfl rfl)
  unfold handler
  cases hty : (m.sockets ev.userData).type with
  | unset => exact h₁
  | ipc => exact onBackendConnect_clean h₁ ht₁ hn₁ hf₁
  | frontend => exact h₁.keeps (Keeps.blind.onFrontend ht₁ hf₁)
  | backend =>
    cases hread : readOf (m.sockets ev.userData) env ev.events with
    | some buf => exact reads_clean h₁ hn₁ ⟨hk, hty⟩ hread
    | none =>
      refine h₁.keeps (onBackend_keeps hread ?_)
      rintro ⟨hcl, hrd, hro, hrecv⟩
      exact hC ⟨hrun, hty, hcl, hrd, hro, hrecv⟩

/-- After a failed `recv` the slot is free, and not zero. -/
theorem RecvFails.not_clean (hC : RecvFails m env ev) (ht : Table m) (hk : m.inRange ev.userData)
    (hf : Fresh m env) (hh : m.halted = false) : ¬ SlotsClean (handleEvent m env ev) := by
  have h0 := ht.live_ne_zero ⟨hk, hC.backend⟩
  refine handleEvent_rule (I := fun m' => ¬ SlotsClean m') ht hk hf hh ?_ ?_
  · intro h1 h2
    have := hC.running h1
    simp [h2] at this
  · rintro - m₁ - hl ht₁ hf₁ hclean
    obtain ⟨-, n, hs, d, rfl⟩ := hl
    simp only [handler, hC.backend] at hclean
    have hclosed := onBackend_recvFailed (m := { m with
        numWorkers := n, workerHandles := hs, workerDied := d }) (k := ev.userData)
      hC.kept hC.ready hC.reads hC.failed
    rw [hclosed] at hclean
    have hslot := hclean.free ev.userData h0 hk (by rw [Master.setSocket_self])
    rw [Master.setSocket_self] at hslot
    exact absurd (congrArg Socket.readOffset hslot) (by decide)

variable {t t' : Tracked} {l : Label}

theorem Tracked.Step.clean (hs : Tracked.Step t l t') (hi : t.Inv) (h : SlotsClean t.master) :
    SlotsClean t'.master ↔
      ∀ env, l = .handle env → ∀ ev evs, t.master.batch = ev :: evs → ¬ RecvFails t.master env ev := by
  obtain ⟨hs⟩ := hs
  rw [Tracked.after_master]
  cases hs with
  | wait _ _ _ | sigusr1 | sigterm =>
    exact iff_of_true (h.keeps (.same rfl rfl rfl)) fun env he => by cases he
  | @handle env ev evs hb hh hf =>
    have ht := hi.table.tail hb
    have hk := hi.table.head hb
    have hf' : Fresh { t.master with batch := evs } env := ⟨hf.ipc, hf.client⟩
    have hsame : RecvFails { t.master with batch := evs } env ev ↔ RecvFails t.master env ev :=
      ⟨fun h => ⟨h.running, h.backend, h.kept, h.ready, h.reads, h.failed⟩,
        fun h => ⟨h.running, h.backend, h.kept, h.ready, h.reads, h.failed⟩⟩
    constructor
    · rintro h' env' he ev' evs' hb' hfails
      obtain rfl := Label.handle.inj he
      cases hb.symm.trans hb'
      exact (hsame.2 hfails).not_clean ht hk hf' hh h'
    · intro hno
      exact handleEvent_clean (h.keeps (.same rfl rfl rfl)) ht (hi.names.tail evs) hk hf' hh
        fun hfails => hno env rfl ev evs hb (hsame.1 hfails)

theorem startup_clean (cfg : Setup) : SlotsClean (startup cfg) := by
  have hst := startup_started cfg
  have hfree : ∀ k, k ≠ 0 → ((startup cfg).sockets k).type = .unset →
      (startup cfg).sockets k = {} := by
    refine (startup_rule cfg (I := fun m => ∀ k, k ≠ 0 → (m.sockets k).type = .unset →
      m.sockets k = {}) ?_ ?_).2
    · intro k h0 _
      have hne : ¬ 0 = cfg.totalSockets := by
        have := cfg.max_pos
        rw [Setup.totalSockets]; omega
      have hnext : nextWaitEventPos (createWaitEventSetEx cfg.totalSockets) = 0 := if_neg hne
      have hother : (startupLatch cfg).sockets k = {} := by
        rw [startupLatch, Master.openSocket, hnext]
        exact Function.update_of_ne h0 _ _
      exact hother
    · intro m type fd _ _ hty hm k h0 hunset
      by_cases hk : k = nextWaitEventPos m.rmWaitSet
      · subst hk
        have htype : ((startupListen type m fd).sockets (nextWaitEventPos m.rmWaitSet)).type =
            type := openSocket_next.1
        rw [htype] at hunset
        rcases hty with rfl | rfl <;> cases hunset
      · have hsock : (startupListen type m fd).sockets k = m.sockets k :=
          Function.update_of_ne hk _ _
        rw [hsock] at hunset ⊢
        exact hm k h0 hunset
  exact ⟨fun k h0 _ hty => hfree k h0 hty, fun k hk => absurd hk.type (hst.backend k),
    fun k hk => absurd hk.type (hst.backend k)⟩

/-- **Slots are recycled clean** exactly along the runs in which no `recv` fails and no connection is
    accepted into a slot that the batch or the idle ring still names. -/
theorem slots_recycled_iff {cfg : Setup} {h : List (Tracked × Label)}
    (hr : Run Tracked.Step (.init cfg) h t) : Always Recycled h t ↔ Meets CleanStep h := by
  refine hr.always_iff_meets (I := fun t => t.Inv ∧ IdleOk t.master)
    ⟨⟨startup_table cfg, startup_names cfg, fun k hk => absurd hk ((startup_started cfg).backend k)⟩,
      startup_idleOk cfg⟩ ⟨startup_clean cfg, ?_, (startup_idleOk cfg).hello⟩ ?_ ?_
  · intro ev hev
    have hb : (startup cfg).batch = [] := (startup_started cfg).batch
    simp [Tracked.init, hb] at hev
  · rintro t l t' ⟨hi, hidle⟩ hP hC hs
    have hidle' : IdleOk t'.master := by
      obtain ⟨hs'⟩ := hs
      rw [Tracked.after_master]
      exact (hs'.idleOk hi.table hi.names hidle).1 hC.ring
    exact ⟨⟨hs.inv hi, hidle'⟩, (hs.clean hi hP.clean).2 hC.recv,
      (hs.owned_iff hi hP.events).2 hC.batch, hidle'.hello⟩
  · rintro t l t' ⟨hi, hidle⟩ hP hC hs hP'
    refine hC ⟨(hs.clean hi hP.clean).1 hP'.clean, (hs.owned_iff hi hP.events).1 hP'.events, ?_⟩
    by_contra hstale
    have hring := hP'.hellos
    obtain ⟨hs'⟩ := hs
    rw [Tracked.after_master] at hring
    exact (hs'.idleOk hi.table hi.names hidle).2 hstale hring

/-- Worker 20 connects to slot 3, where `recv` fails; worker 21 connects to slot 4, and worker 22 to
    slot 3. -/
def dirtySlotRun : List Label :=
  [.wait [readable 1], .handle { acceptIpc := 20 }, .wait [readable 3], .handle { recv := none },
    .wait [readable 1], .handle { acceptIpc := 21 }, .wait [readable 1], .handle { acceptIpc := 22 }]

/-- Worker 22 begins with an offset of 255, and its hello is not read. -/
theorem hello_never_read : ∃ t, Reach Tracked.Step (.init smallSetup) t ∧
    (t.master.sockets 3).type = .backend ∧ (t.master.sockets 3).fd = 22 ∧
    (t.master.sockets 3).readOffset = 255 ∧ t.master.stream 22 = [] ∧
    (onBackend t.master { recv := some (backendHello ++ [0, 0, 0, 0]) } 3
      wlSocketReadable).stream 22 = [] ∧ ¬ Recycled t := by
  have hexec : (execs Tracked.next (.init smallSetup) dirtySlotRun).any (fun t =>
      (t.master.sockets 3).type = .backend ∧ (t.master.sockets 3).fd = 22 ∧
      (t.master.sockets 3).readOffset = 255 ∧ t.master.stream 22 = [] ∧
      (onBackend t.master { recv := some (backendHello ++ [0, 0, 0, 0]) } 3
        wlSocketReadable).stream 22 = [] ∧ t.master.totalSockets = 5) = true := by decide
  obtain ⟨t, hr, hp⟩ := exists_reach_of_execs (fun _ _ _ => Tracked.step_of_next) hexec
  obtain ⟨h1, h2, h3, h4, h5, h6⟩ := of_decide_eq_true hp
  refine ⟨t, hr, h1, h2, h3, h4, h5, fun h => ?_⟩
  have hrange : t.master.inRange 3 := by
    rw [Master.inRange, h6]
    decide
  have hlt := h.clean.offset 3 ⟨hrange, h1⟩
  rw [h3] at hlt
  exact absurd hlt (by decide)

/-- A worker connects to a slot that nothing names. -/
theorem first_worker_recycled : ∃ h t, Run Tracked.Step (.init smallSetup) h t ∧
    t.master.backends = [20] ∧ Always Recycled h t := by
  have h1 : Tracked.Step (.init smallSetup) (.wait [readable 1]) _ :=
    .step (.wait (by decide) (by decide) (by decide))
  have h2 : Tracked.Step ⟨{ startup smallSetup with batch := [readable 1] },
      (startup smallSetup).sockets⟩ (.handle { acceptIpc := 20 }) _ :=
    .step (.handle rfl (by decide) (by decide))
  have hr := Run.snoc (.snoc .nil h1) h2
  refine ⟨_, _, hr, by decide, (slots_recycled_iff hr).2 ?_⟩
  rw [meets_cons, meets_cons]
  refine ⟨⟨?_, ?_, ?_⟩, ⟨fun env he => ?_, trivial, trivial⟩, meets_nil _⟩
  · rintro env he ev evs hb hfails
    cases hb
    exact absurd hfails.backend (by decide)
  · rintro ev evs hb hreuse
    cases hb
    exact absurd hreuse.pending (by decide)
  · rintro ev evs hb hstale
    cases hb
    exact absurd hstale.stale (by decide)
  · cases he

end Rustica
