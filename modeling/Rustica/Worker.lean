/-
  The worker processes (`worker.c`) and their connections to the master.

  A worker writes its hello when its socket is writeable and takes one client when it is readable;
  in between it sits in `WaitEventSetWait`.  The system of the master and any number of workers
  moves one party at a time: `World.move` is the state after a move, where the move is possible.

  What a worker does with a client it has taken is left out here, except that it can end the
  process.  A notification received between two waits touches neither the socket nor the clients.
-/
import Rustica.Handlers

namespace Rustica

open Exec

/-! ## One worker -/

def waitWrite : ℕ := 0
def waitRead : ℕ := 0

/-- `hello`, 12 bytes: the text, and the worker's number as a little-endian `int`. -/
def hello (workerId : ℕ) : List UInt8 :=
  backendHello ++ (List.range 4).map fun j => UInt8.ofNat (workerId / 256 ^ j)

/-- Where a worker is in `rustica_worker`.  With no events left to handle it waits for more. -/
inductive Pc where
  | off
  | handling (evs : List Events)
  /-- a wait has returned 0 events and the exit is decided on -/
  | timedOut
  /-- `main_loop` has returned -/
  | left
  /-- the socket is closed -/
  | closed
  deriving DecidableEq

/-- The static variables of a worker, and its connection: the bytes on their way to the master, the
    clients on their way to the worker, and whether the master has accepted it or hung up.
    `taken` are the clients that `recvmsg` has returned, the first one first; the code does not
    keep this record. -/
structure Worker where
  pc : Pc := .off
  state : ℕ := waitWrite
  interest : Events := {}
  sent : ℕ := 0
  toMaster : List UInt8 := []
  toWorker : List Pgsocket := []
  accepted : Bool := false
  hungUp : Bool := false
  taken : List Pgsocket := []

/-- The answers of the calls a worker makes while it handles an event. -/
structure WorkerEnv where
  shutdownRequested : Bool := false
  /-- `none` is a failed `send` -/
  send : Option ℕ := none
  recvFails : Bool := false
  /-- the request raises an error, which ends the process -/
  raises : Bool := false

namespace Worker

variable (p : Worker)

/-- The part of `startup` that concerns the socket. -/
def startup : Worker :=
  { p with pc := .handling [], interest := wlSocketWriteable ||| wlSocketClosed }

def onWriteable (workerId : ℕ) (env : WorkerEnv) : Worker :=
  match env.send with
  | none => p
  | some nbytes =>
    let bytes := ((hello workerId).drop p.sent).take nbytes
    let p := { p with toMaster := p.toMaster ++ bytes, sent := p.sent + bytes.length }
    if p.sent = helloLen then
      { p with state := waitRead, sent := 0, interest := wlSocketReadable ||| wlSocketClosed }
    else p

/-- At the end of the stream `recvmsg` returns 0 and no client, and the code goes on. -/
def onReadable (env : WorkerEnv) : Worker :=
  if env.recvFails then { p with pc := .closed }
  else
    let p := { p with
      taken := p.taken ++ p.toWorker.head?.toList
      toWorker := p.toWorker.tail
      state := waitWrite
      interest := wlSocketWriteable ||| wlSocketClosed }
    if env.raises then { p with pc := .closed } else p

/-- One round of `main_loop`'s inner loop. -/
def onEvent (workerId : ℕ) (env : WorkerEnv) (events : Events) : Worker :=
  if events.latchSet && env.shutdownRequested then { p with pc := .left }
  else if events.closed then { p with pc := .left }
  else
    let p := if p.state = waitWrite ∧ events.writeable then p.onWriteable workerId env else p
    if p.state = waitRead ∧ events.readable then p.onReadable env else p

/-- `recvmsg` does not block. -/
def readable : Bool := !p.toWorker.isEmpty || p.hungUp

/-- What `WaitEventSetWait` can return: at most once the latch, and at most once what the socket is
    registered for and ready for (there can always be room to write).  It returns no event only
    after a timeout, with nothing ready. -/
def Woken (idleTimeout : ℕ) (evs : List Events) : Prop :=
  evs.countP Events.latchSet ≤ 1 ∧ evs.countP (fun e => !e.latchSet) ≤ 1 ∧
  (∀ e ∈ evs, e = wlLatchSet ∨ (e.Sub p.interest ∧ (e.readable → p.readable) ∧
    (e.closed → p.hungUp))) ∧
  (evs = [] → 0 < idleTimeout ∧ (p.interest.readable → p.readable = false) ∧
    (p.interest.closed → p.hungUp = false))

instance (idleTimeout : ℕ) (evs : List Events) : Decidable (p.Woken idleTimeout evs) := by
  unfold Woken; infer_instance

/-- `main_loop` after a wait. -/
def wake (evs : List Events) : Worker :=
  { p with pc := if evs.length = 0 ∧ p.state = waitRead then .timedOut else .handling evs }

end Worker

/-! ## The master and the workers -/

/-- The master, the workers, and the worker at the other end of each backend connection. -/
structure World where
  master : Master
  worker : ℕ → Worker
  peer : Pgsocket → Option ℕ

def World.setWorker (w : World) (i : ℕ) (p : Worker) : World :=
  { w with worker := Function.update w.worker i p }

/-- What an act of the master does to the connections, where it is possible; a connection that the
    master accepts is worker `i`'s. -/
def World.deliver (i : ℕ) (w : World) : Act → Option World
  | .acceptBackend b =>
    if w.peer b = none ∧ (w.worker i).pc ≠ .off ∧ (w.worker i).accepted = false then
      some ({ w with peer := Function.update w.peer b (some i) }.setWorker i
        { w.worker i with accepted := true })
    else none
  | .received b bytes => match w.peer b with
    | some j => if bytes <+: (w.worker j).toMaster then
        some (w.setWorker j
          { w.worker j with toMaster := (w.worker j).toMaster.drop bytes.length })
      else none
    | none => none
  | .sent b c => match w.peer b with
    | some j => if (w.worker j).pc ≠ .closed then
        some (w.setWorker j { w.worker j with toWorker := (w.worker j).toWorker ++ [c] })
      else none
    | none => none
  | .close b => match w.peer b with
    | some j => some (w.setWorker j { w.worker j with hungUp := true })
    | none => some w
  | .listen _ | .acceptClient _ | .hello _ | .sendFailed _ _ => some w

/-- The acts, the latest first, one after the other. -/
def World.deliverAll (i : ℕ) (w : World) (acts : List Act) : Option World :=
  acts.foldr (fun a w => w.bind fun w => w.deliver i a) (some w)

inductive Move where
  | start (i : ℕ)
  | wait (i : ℕ) (evs : List Events)
  | event (i : ℕ) (env : WorkerEnv)
  /-- the exit after the idle timeout -/
  | leave (i : ℕ)
  | teardown (i : ℕ)
  /-- a step of the master; a connection it accepts is worker `i`'s -/
  | master (i : ℕ) (l : Label)

/-- The acts by which the trace of `m'` is longer. -/
def newActs (m m' : Master) : List Act := m'.trace.take (m'.trace.length - m.trace.length)

/-- The state after a move.  `rustica.worker_idle_timeout` is in seconds, 0 for none. -/
def World.move (idleTimeout : ℕ) (w : World) : Move → Option World
  | .start i => if (w.worker i).pc = .off then some (w.setWorker i (w.worker i).startup) else none
  | .wait i evs =>
    if (w.worker i).pc = .handling [] ∧ (w.worker i).Woken idleTimeout evs then
      some (w.setWorker i ((w.worker i).wake evs))
    else none
  | .event i env => match (w.worker i).pc with
    | .handling (e :: evs) =>
      some (w.setWorker i ({ w.worker i with pc := .handling evs }.onEvent i env e))
    | _ => none
  | .leave i =>
    if (w.worker i).pc = .timedOut then some (w.setWorker i { w.worker i with pc := .left })
    else none
  | .teardown i =>
    if (w.worker i).pc = .left then some (w.setWorker i { w.worker i with pc := .closed })
    else none
  | .master i l => (next w.master l).bind fun m' =>
    { w with master := m' }.deliverAll i (newActs w.master m')

/-- The steps of the master and the workers, in any order. -/
abbrev World.Step (idleTimeout : ℕ) (w : World) (a : Move) (w' : World) : Prop :=
  w.move idleTimeout a = some w'

/-- No worker has started. -/
def World.init (cfg : Setup) : World := ⟨startup cfg, fun _ => {}, fun _ => none⟩

end Rustica
