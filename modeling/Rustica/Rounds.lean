/-
  The rounds of a worker.

  A worker announces itself with the 12 bytes of its hello, waits, takes one client, and starts over.
  Where it is in the round shows in three places: in `sent`, in the events that the socket is
  registered for, and in `state`.  The two values of `state` are the same number, though, so the test
  of `state` in `main_loop` lets a worker time out whose hello is not written.

  `Session` is one worker with a record of what it did, the latest first; the code does not keep this
  record.  What the master does at the other end of the connection is arbitrary.
-/
import Rustica.Worker

namespace Rustica

open Exec

/-- What a worker does to its connection. -/
inductive WorkerAct where
  /-- `send` has taken these bytes of the hello -/
  | sent (bytes : List UInt8)
  | recvmsg
  /-- the exit after the idle timeout, with the value of `sent` -/
  | idleExit (sent : ℕ)
  deriving DecidableEq

structure Session where
  worker : Worker
  acts : List WorkerAct

/-- The bytes sent since the last client was taken. -/
def sentInRound : List WorkerAct → List UInt8
  | [] => []
  | .sent bytes :: l => sentInRound l ++ bytes
  | .recvmsg :: _ => []
  | .idleExit _ :: l => sentInRound l

namespace Worker

variable (p : Worker)

/-- What `on_writeable` sends. -/
def sends (workerId : ℕ) (env : WorkerEnv) : List WorkerAct :=
  match env.send with
  | none => []
  | some nbytes => [.sent (((hello workerId).drop p.sent).take nbytes)]

/-- What the worker does in `onEvent`. -/
def eventActs (workerId : ℕ) (env : WorkerEnv) (events : Events) : List WorkerAct :=
  if events.latchSet && env.shutdownRequested then []
  else if events.closed then []
  else
    let q := if p.state = waitWrite ∧ events.writeable then p.onWriteable workerId env else p
    (if q.state = waitRead ∧ events.readable then [.recvmsg] else []) ++
      if p.state = waitWrite ∧ events.writeable then p.sends workerId env else []

end Worker

inductive SessionMove where
  | start
  | wait (evs : List Events)
  | event (env : WorkerEnv)
  | leave
  | teardown
  /-- the other end of the connection -/
  | peer (toMaster : List UInt8) (toWorker : List Pgsocket) (accepted hungUp : Bool)

/-- The state after a move, where the move is possible. -/
def Session.move (workerId idleTimeout : ℕ) (s : Session) : SessionMove → Option Session
  | .start => if s.worker.pc = .off then some { s with worker := s.worker.startup } else none
  | .wait evs =>
    if s.worker.pc = .handling [] ∧ s.worker.Woken idleTimeout evs then
      let p := s.worker.wake evs
      some ⟨p, if p.pc = .timedOut then .idleExit p.sent :: s.acts else s.acts⟩
    else none
  | .event env => match s.worker.pc with
    | .handling (e :: evs) =>
      let p := { s.worker with pc := .handling evs }
      some ⟨p.onEvent workerId env e, p.eventActs workerId env e ++ s.acts⟩
    | _ => none
  | .leave => if s.worker.pc = .timedOut then some { s with worker.pc := .left } else none
  | .teardown => if s.worker.pc = .left then some { s with worker.pc := .closed } else none
  | .peer toMaster toWorker accepted hungUp =>
    some { s with worker := { s.worker with toMaster, toWorker, accepted, hungUp } }

abbrev Session.Step (workerId idleTimeout : ℕ) (s : Session) (mv : SessionMove) (s' : Session) :
    Prop := s.move workerId idleTimeout mv = some s'

def Session.init : Session := ⟨{}, []⟩

/-- The act comes when the hello of the round is out, and nothing else was sent. -/
def WorkerAct.Timely (workerId : ℕ) (before : List WorkerAct) : WorkerAct → Prop
  | .sent _ => True
  | .recvmsg => sentInRound before = hello workerId
  | .idleExit n => sentInRound before = hello workerId ∧ n = 0

/-- Every client is taken, and every idle exit made, after the one hello of its round. -/
def RoundsInOrder (workerId : ℕ) : List WorkerAct → Prop
  | [] => True
  | a :: l => a.Timely workerId l ∧ RoundsInOrder workerId l

/-- The same for the clients only. -/
def TakesInOrder (workerId : ℕ) : List WorkerAct → Prop
  | [] => True
  | a :: l => (a = .recvmsg → a.Timely workerId l) ∧ TakesInOrder workerId l

/-- No wait ends in a timeout while the socket is registered for writing. -/
def NoTimeoutWriting (s : Session) : SessionMove → Prop
  | .wait evs => evs = [] → s.worker.interest.writeable = false
  | _ => True

instance (s : Session) : (mv : SessionMove) → Decidable (NoTimeoutWriting s mv)
  | .wait evs => inferInstanceAs (Decidable (evs = [] → s.worker.interest.writeable = false))
  | .start | .event _ | .leave | .teardown | .peer _ _ _ _ => .isTrue trivial

variable {p : Worker} {s s' : Session} {workerId idleTimeout : ℕ} {env : WorkerEnv} {e : Events}
  {evs : List Events} {mv : SessionMove} {acts : List WorkerAct}

theorem length_hello (workerId : ℕ) : (hello workerId).length = helloLen := by
  simp [hello, backendHello, helloLen]

/-! ## The two phases of a round -/

def writingEvents : Events := wlSocketWriteable ||| wlSocketClosed
def readingEvents : Events := wlSocketReadable ||| wlSocketClosed

/-- The registered events, `sent` and the bytes sent in this round agree. -/
inductive RoundPhase (workerId : ℕ) (p : Worker) (acts : List WorkerAct) : Prop
  | writing : p.interest = writingEvents → p.sent < helloLen →
      sentInRound acts = (hello workerId).take p.sent → RoundPhase workerId p acts
  | reading : p.interest = readingEvents → p.sent = 0 → sentInRound acts = hello workerId →
      RoundPhase workerId p acts

/-- The events left of a batch: the latch, and what the socket is registered for, once. -/
structure Pending (p : Worker) (evs : List Events) : Prop where
  sub : ∀ e ∈ evs, e = wlLatchSet ∨ (e.latchSet = false ∧ e.Sub p.interest)
  once : evs.countP (fun e => !e.latchSet) ≤ 1

structure Session.Inv (workerId : ℕ) (s : Session) : Prop where
  state : s.worker.state = waitWrite
  off : s.worker.pc = .off → s.worker.sent = 0 ∧ s.acts = []
  phase : ∀ evs, s.worker.pc = .handling evs →
    RoundPhase workerId s.worker s.acts ∧ Pending s.worker evs
  takes : TakesInOrder workerId s.acts

/-- What follows an event of the socket is the latch, whatever the socket is registered for now. -/
theorem Pending.tail {q : Worker} (h : Pending p (e :: evs))
    (hq : q.interest = p.interest ∨ e ≠ wlLatchSet) : Pending q evs := by
  have honce := h.once
  rw [List.countP_cons] at honce
  refine ⟨fun e' he' => ?_, by omega⟩
  have hsub := h.sub e' (List.mem_cons_of_mem _ he')
  rcases hq with hq | hne
  · rwa [hq]
  have hlatch : e.latchSet = false := ((h.sub e List.mem_cons_self).resolve_left hne).1
  have hzero : evs.countP (fun e => !e.latchSet) = 0 := by
    simp only [hlatch, Bool.not_false, if_true] at honce
    omega
  refine .inl (hsub.resolve_right fun h' => ?_)
  have := List.countP_eq_zero.1 hzero e' he'
  simp [h'.1] at this

theorem RoundPhase.no_latch (h : RoundPhase workerId p acts) : p.interest.latchSet = false := by
  cases h with
  | writing h _ _ => rw [h]; rfl
  | reading h _ _ => rw [h]; rfl

theorem RoundPhase.wake (h : RoundPhase workerId p acts) :
    RoundPhase workerId (p.wake evs) acts := by
  cases h with
  | writing h1 h2 h3 => exact .writing h1 h2 h3
  | reading h1 h2 h3 => exact .reading h1 h2 h3

theorem RoundPhase.pending (h : RoundPhase workerId p acts) (hw : p.Woken idleTimeout evs) :
    Pending p evs := by
  refine ⟨fun e he => ?_, hw.2.1⟩
  refine (hw.2.2.1 e he).imp_right fun hsub => ⟨?_, hsub.1⟩
  by_contra hl
  have := hsub.1.1 (by simpa using hl)
  simp [h.no_latch] at this

/-! ## One event -/

/-- While the hello is being written an event of the socket can only make the worker write on. -/
theorem onEvent_writing (workerId : ℕ) (hr : e.readable = false) (hs : p.state = waitWrite)
    (hl : (e.latchSet && env.shutdownRequested) = false) (hc : e.closed = false) :
    p.onEvent workerId env e = (if e.writeable then p.onWriteable workerId env else p) ∧
      p.eventActs workerId env e = if e.writeable then p.sends workerId env else [] := by
  simp [Worker.onEvent, Worker.eventActs, hr, hs, hl, hc]

/-- While the worker waits for a client an event of the socket can only make it take one. -/
theorem onEvent_reading (workerId : ℕ) (hw : e.writeable = false) (hs : p.state = waitWrite)
    (hl : (e.latchSet && env.shutdownRequested) = false) (hc : e.closed = false) :
    p.onEvent workerId env e = (if e.readable then p.onReadable env else p) ∧
      p.eventActs workerId env e = if e.readable then [.recvmsg] else [] := by
  have hs' : p.state = waitRead := hs
  simp [Worker.onEvent, Worker.eventActs, hw, hs', hl, hc]

/-- **Writing on** extends what was sent, and the whole hello turns the phase. -/
theorem RoundPhase.onWriteable (hi : p.interest = writingEvents) (hlt : p.sent < helloLen)
    (ha : sentInRound acts = (hello workerId).take p.sent) :
    RoundPhase workerId (p.onWriteable workerId env) (p.sends workerId env ++ acts) := by
  cases hsend : env.send with
  | none =>
    simp only [Worker.onWriteable, Worker.sends, hsend]
    exact .writing hi hlt ha
  | some nbytes =>
    simp only [Worker.onWriteable, Worker.sends, hsend]
    set bytes := ((hello workerId).drop p.sent).take nbytes with hbytes
    have hlen : bytes.length ≤ helloLen - p.sent := by
      rw [hbytes, List.length_take, List.length_drop, length_hello]
      exact min_le_right _ _
    have hround : sentInRound (.sent bytes :: acts) =
        (hello workerId).take (p.sent + bytes.length) := by
      rw [sentInRound, ha, List.take_add, hbytes, List.length_take]
      congr 1
      exact List.take_eq_take_min
    split
    · rename_i h12
      refine .reading rfl rfl ?_
      rw [List.singleton_append, hround, h12, ← length_hello workerId, List.take_length]
    · rename_i h12
      change ¬ p.sent + bytes.length = helloLen at h12
      have hlt' : p.sent + bytes.length < helloLen := by omega
      exact .writing hi hlt' hround

theorem onWriteable_pc : (p.onWriteable workerId env).pc = p.pc := by
  unfold Worker.onWriteable
  split
  · rfl
  · dsimp only
    split <;> rfl

theorem onWriteable_state (hs : p.state = waitWrite) :
    (p.onWriteable workerId env).state = waitWrite := by
  unfold Worker.onWriteable
  split
  · exact hs
  · dsimp only
    split
    · rfl
    · exact hs

/-- A worker that has taken a client starts over, or is gone. -/
theorem onReadable_cases (p : Worker) (env : WorkerEnv) : (p.onReadable env).pc = .closed ∨
    ((p.onReadable env).pc = p.pc ∧ (p.onReadable env).interest = writingEvents ∧
      (p.onReadable env).sent = p.sent) := by
  unfold Worker.onReadable
  split
  · exact .inl rfl
  · dsimp only
    split
    · exact .inl rfl
    · exact .inr ⟨rfl, rfl, rfl⟩

theorem onReadable_state (hs : p.state = waitWrite) : (p.onReadable env).state = waitWrite := by
  unfold Worker.onReadable
  split
  · exact hs
  · dsimp only
    split <;> rfl

theorem TakesInOrder.sends (h : TakesInOrder workerId acts) :
    TakesInOrder workerId (p.sends workerId env ++ acts) := by
  unfold Worker.sends
  split
  · exact h
  · exact ⟨nofun, h⟩

theorem Events.Sub.not_readable (h : e.Sub writingEvents) : e.readable = false := by
  by_contra hr
  exact absurd (h.2.1 (by simpa using hr)) (by decide)

theorem Events.Sub.not_writeable (h : e.Sub readingEvents) : e.writeable = false := by
  by_contra hw
  exact absurd (h.2.2.1 (by simpa using hw)) (by decide)

namespace Session.Inv

/-- A worker that handles no more events. -/
theorem gone (hs : p.state = waitWrite) (ha : TakesInOrder workerId acts)
    (hpc : p.pc = .timedOut ∨ p.pc = .left ∨ p.pc = .closed) : Session.Inv workerId ⟨p, acts⟩ := by
  refine ⟨hs, fun h => ?_, fun evs h => ?_, ha⟩ <;>
  · change p.pc = _ at h
    simp [h] at hpc

theorem busy (hs : p.state = waitWrite) (ha : TakesInOrder workerId acts)
    (hpc : p.pc = .handling evs) (hphase : RoundPhase workerId p acts) (hp : Pending p evs) :
    Session.Inv workerId ⟨p, acts⟩ := by
  refine ⟨hs, fun h => ?_, fun evs' h => ?_, ha⟩
  · change p.pc = _ at h
    simp [hpc] at h
  · cases hpc.symm.trans (show p.pc = _ from h)
    exact ⟨hphase, hp⟩

/-- **The first event of a batch**, whatever it is, leaves the three records of the round in step. -/
theorem event (hs : p.state = waitWrite) (ha : TakesInOrder workerId acts)
    (hpc : p.pc = .handling evs) (hphase : RoundPhase workerId p acts) (hp : Pending p (e :: evs)) :
    Session.Inv workerId ⟨p.onEvent workerId env e, p.eventActs workerId env e ++ acts⟩ := by
  by_cases hl : (e.latchSet && env.shutdownRequested) = true
  · simp only [Worker.onEvent, Worker.eventActs, hl, if_true]
    exact gone hs ha (.inr (.inl rfl))
  by_cases hc : e.closed = true
  · simp only [Worker.onEvent, Worker.eventActs, hl, hc, if_true, if_false, Bool.false_eq_true]
    exact gone hs ha (.inr (.inl rfl))
  rw [Bool.not_eq_true] at hl hc
  have hmem := hp.sub e List.mem_cons_self
  have hquiet : Session.Inv workerId ⟨p, acts⟩ := busy hs ha hpc hphase (hp.tail (.inl rfl))
  cases hphase with
  | writing hint hlt hsent =>
    have hr : e.readable = false := by
      rcases hmem with rfl | ⟨-, hsub⟩
      exacts [rfl, (hint ▸ hsub).not_readable]
    obtain ⟨h1, h2⟩ := onEvent_writing workerId hr hs hl hc
    rw [h1, h2]
    split
    · rename_i hw
      have hne : e ≠ wlLatchSet := by
        rintro rfl
        cases hw
      exact busy (onWriteable_state hs) ha.sends (onWriteable_pc.trans hpc)
        (.onWriteable hint hlt hsent) (hp.tail (.inr hne))
    · exact hquiet
  | reading hint hzero hsent =>
    have hw : e.writeable = false := by
      rcases hmem with rfl | ⟨-, hsub⟩
      exacts [rfl, (hint ▸ hsub).not_writeable]
    obtain ⟨h1, h2⟩ := onEvent_reading workerId hw hs hl hc
    rw [h1, h2]
    split
    · rename_i hr
      have hne : e ≠ wlLatchSet := by
        rintro rfl
        cases hr
      have htake : TakesInOrder workerId ([.recvmsg] ++ acts) := ⟨fun _ => hsent, ha⟩
      rcases onReadable_cases p env with hpc' | ⟨hpc', hint', hsent'⟩
      · exact gone (onReadable_state hs) htake (.inr (.inr hpc'))
      · have hstart : RoundPhase workerId (p.onReadable env) ([.recvmsg] ++ acts) := by
          refine .writing hint' ?_ ?_
          · rw [hsent', hzero]; decide
          · rw [hsent', hzero]; rfl
        exact busy (onReadable_state hs) htake (hpc'.trans hpc) hstart (hp.tail (.inr hne))
    · exact hquiet

end Session.Inv

/-! ## Along runs -/

theorem Session.Step.inv (hs : Session.Step workerId idleTimeout s mv s') (hi : s.Inv workerId) :
    s'.Inv workerId := by
  cases mv with
  | start =>
    obtain ⟨hpc, ⟨⟩⟩ := Option.ite_none_right_eq_some.1 hs
    obtain ⟨hsent, hacts⟩ := hi.off hpc
    refine .busy hi.state hi.takes rfl (.writing rfl ?_ ?_) ⟨nofun, Nat.zero_le _⟩
    · change s.worker.sent < helloLen
      rw [hsent]; decide
    · change sentInRound s.acts = (hello workerId).take s.worker.sent
      rw [hsent, hacts]; rfl
  | wait evs =>
    obtain ⟨⟨hpc, hw⟩, ⟨⟩⟩ := Option.ite_none_right_eq_some.1 hs
    obtain ⟨hphase, -⟩ := hi.phase _ hpc
    by_cases hevs : evs.length = 0
    · have hto : (s.worker.wake evs).pc = .timedOut := if_pos ⟨hevs, hi.state⟩
      simp only [hto, if_true]
      exact .gone hi.state ⟨nofun, hi.takes⟩ (.inl hto)
    · have hto : (s.worker.wake evs).pc = .handling evs := if_neg fun h => hevs h.1
      simp only [hto, reduceCtorEq, if_false]
      obtain ⟨hsub, honce⟩ := hphase.pending hw
      exact .busy hi.state hi.takes hto hphase.wake ⟨hsub, honce⟩
  | event env =>
    simp only [Session.Step, Session.move] at hs
    split at hs
    · rename_i e evs hpc
      cases hs
      obtain ⟨hphase, hp⟩ := hi.phase _ hpc
      have hphase' : RoundPhase workerId { s.worker with pc := .handling evs } s.acts := by
        cases hphase with
        | writing h1 h2 h3 => exact .writing h1 h2 h3
        | reading h1 h2 h3 => exact .reading h1 h2 h3
      exact .event hi.state hi.takes rfl hphase' ⟨hp.sub, hp.once⟩
    · cases hs
  | leave =>
    obtain ⟨-, ⟨⟩⟩ := Option.ite_none_right_eq_some.1 hs
    exact .gone hi.state hi.takes (.inr (.inl rfl))
  | teardown =>
    obtain ⟨-, ⟨⟩⟩ := Option.ite_none_right_eq_some.1 hs
    exact .gone hi.state hi.takes (.inr (.inr rfl))
  | peer toMaster toWorker accepted hungUp =>
    cases hs
    refine ⟨hi.state, hi.off, fun evs hpc => ?_, hi.takes⟩
    obtain ⟨hphase, hp⟩ := hi.phase evs hpc
    refine ⟨?_, hp.sub, hp.once⟩
    cases hphase with
    | writing h1 h2 h3 => exact .writing h1 h2 h3
    | reading h1 h2 h3 => exact .reading h1 h2 h3

theorem init_inv (workerId : ℕ) : Session.Inv workerId .init :=
  ⟨rfl, fun _ => ⟨rfl, rfl⟩, nofun, trivial⟩

/-- An event is no reason for an idle exit. -/
theorem eventActs_no_exit (p : Worker) (workerId : ℕ) (env : WorkerEnv) (e : Events) (n : ℕ) :
    .idleExit n ∉ p.eventActs workerId env e := by
  have hsends : .idleExit n ∉ p.sends workerId env := by
    unfold Worker.sends
    split <;> simp
  unfold Worker.eventActs
  split_ifs <;> simp [hsends]

theorem RoundsInOrder.append {new : List WorkerAct} (h : RoundsInOrder workerId acts)
    (ht : TakesInOrder workerId (new ++ acts)) (hn : ∀ n, .idleExit n ∉ new) :
    RoundsInOrder workerId (new ++ acts) := by
  induction new with
  | nil => exact h
  | cons a new ih =>
    refine ⟨?_, ih ht.2 fun n hmem => hn n (List.mem_cons_of_mem _ hmem)⟩
    cases a with
    | sent _ => trivial
    | recvmsg => exact ht.1 rfl
    | idleExit n => exact absurd List.mem_cons_self (hn n)

/-- An exit for idleness is timely exactly when the worker waits for a client. -/
theorem RoundPhase.exit_iff (h : RoundPhase workerId p acts) :
    (WorkerAct.idleExit p.sent).Timely workerId acts ↔ p.interest.writeable = false := by
  cases h with
  | writing hint hlt hsent =>
    refine iff_of_false (fun ⟨hall, _⟩ => ?_) (by rw [hint]; decide)
    have := congrArg List.length (hsent.symm.trans hall)
    rw [List.length_take, length_hello] at this
    omega
  | reading hint hzero hsent => exact iff_of_true ⟨hsent, hzero⟩ (by rw [hint]; rfl)

/-- **A move keeps the order exactly if it is no timeout of a worker that is writing.** -/
theorem Session.Step.inOrder_iff (hs : Session.Step workerId idleTimeout s mv s')
    (hi : s.Inv workerId) (ho : RoundsInOrder workerId s.acts) :
    RoundsInOrder workerId s'.acts ↔ NoTimeoutWriting s mv := by
  have hi' := hs.inv hi
  cases mv with
  | wait evs =>
    obtain ⟨⟨hpc, hw⟩, ⟨⟩⟩ := Option.ite_none_right_eq_some.1 hs
    obtain ⟨hphase, -⟩ := hi.phase _ hpc
    by_cases hevs : evs = []
    · have hto : (s.worker.wake evs).pc = .timedOut := if_pos ⟨by simp [hevs], hi.state⟩
      simp only [hto, if_true, NoTimeoutWriting]
      exact (and_iff_left ho).trans (hphase.exit_iff.trans ⟨fun h _ => h, fun h => h hevs⟩)
    · have hto : (s.worker.wake evs).pc = .handling evs := if_neg fun h => hevs (by simpa using h.1)
      simp only [hto, reduceCtorEq, if_false]
      exact iff_of_true ho fun h => absurd h hevs
  | event env =>
    simp only [Session.Step, Session.move] at hs
    split at hs
    · cases hs
      exact iff_of_true (ho.append hi'.takes fun n => eventActs_no_exit _ _ _ _ n) trivial
    · cases hs
  | start | leave | teardown =>
    obtain ⟨-, ⟨⟩⟩ := Option.ite_none_right_eq_some.1 hs
    exact iff_of_true ho trivial
  | peer toMaster toWorker accepted hungUp =>
    cases hs
    exact iff_of_true ho trivial

/-- **A worker exits for idleness only after its hello, along exactly the runs in which no wait times
    out while the worker is writing**; in every run it takes a client only after the one hello of the
    round. -/
theorem rounds_in_order_iff {h : List (Session × SessionMove)}
    (hr : Run (Session.Step workerId idleTimeout) .init h s) :
    (Always (fun s => RoundsInOrder workerId s.acts) h s ↔ Meets NoTimeoutWriting h) ∧
      Always (fun s => TakesInOrder workerId s.acts) h s := by
  constructor
  · refine hr.always_iff_meets (I := Session.Inv workerId) (init_inv workerId) trivial ?_ ?_
    · exact fun s mv s' hi ho hC hs => ⟨hs.inv hi, (hs.inOrder_iff hi ho).2 hC⟩
    · exact fun s mv s' hi ho hC hs ho' => hC ((hs.inOrder_iff hi ho).1 ho')
  · exact (hr.always (init_inv workerId) fun s mv s' hi hs => hs.inv hi).imp fun _ h => h.takes

/-- The hello goes out in two parts, a client is taken, the next hello goes out, and the worker
    leaves after a quiet minute. -/
def orderlyMoves : List SessionMove :=
  [.start, .wait [wlSocketWriteable], .event { send := some 5 }, .wait [wlSocketWriteable],
    .event { send := some 7 }, .peer [] [10] true false, .wait [wlSocketReadable], .event {},
    .wait [wlSocketWriteable], .event { send := some 12 }, .wait []]

theorem orderly_round : ∃ h s, Run (Session.Step 7 60) .init h s ∧
    s.acts = [.idleExit 0, .sent (hello 7), .recvmsg, .sent ((hello 7).drop 5),
      .sent ((hello 7).take 5)] ∧ Always (fun s => RoundsInOrder 7 s.acts) h s := by
  have hexec : (execs (Session.move 7 60) .init orderlyMoves).any (fun s =>
      s.acts = [.idleExit 0, .sent (hello 7), .recvmsg, .sent ((hello 7).drop 5),
        .sent ((hello 7).take 5)]) = true := by decide
  obtain ⟨s, hr, hacts⟩ := exists_run_of_execs (fun _ _ _ h => h) hexec
  refine ⟨_, s, hr, of_decide_eq_true hacts, (rounds_in_order_iff hr).1.2 ?_⟩
  have hguard : ∀ p ∈ trail (Session.move 7 60) .init orderlyMoves [], NoTimeoutWriting p.1 p.2 := by
    decide
  exact hguard

/-- The socket has no room for the hello for a minute, and the worker leaves without a byte sent. -/
theorem leaves_before_hello : ∃ s, Reach (Session.Step 7 60) .init s ∧ s.worker.pc = .timedOut ∧
    s.acts = [.idleExit 0] ∧ ¬ RoundsInOrder 7 s.acts := by
  have hexec : (execs (Session.move 7 60) .init [.start, .wait []]).any (fun s =>
      s.worker.pc = .timedOut ∧ s.acts = [.idleExit 0]) = true := by decide
  obtain ⟨s, hr, hp⟩ := exists_reach_of_execs (fun _ _ _ h => h) hexec
  obtain ⟨hpc, hacts⟩ := of_decide_eq_true hp
  refine ⟨s, hr, hpc, hacts, fun ho => ?_⟩
  rw [hacts] at ho
  have hsent : [] = hello 7 := ho.1.1
  exact absurd hsent (by decide)

end Rustica
